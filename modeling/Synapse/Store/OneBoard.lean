import Synapse.Store.DeleteThrough
import Synapse.Store.InsertBatch

/-!
# One board of the table

Every statement is restricted to a board, so the table of strokes can be seen from one board at a
time: a `BoardStore` is what the table has for its board (`Serves`), and the statements on the table
do to it what the operations of the `BoardStore` of the same name do.
-/

namespace Synapse

open Keyed

/-- The rows of the store are those of its board. -/
def BoardStore.Serves (store : BoardStore) (t : Strokes) : Prop :=
  t.rows.filter (fun r ↦ decide (r.boardId = store.boardId))
    = store.strokes.rows.map (StrokeRecord.ofStroke store.boardId)

namespace BoardStore

variable {store : BoardStore} {t : Strokes} {k : PersistedStroke} {boardId : String} {n : ℕ}

namespace Serves

theorem mem_iff (h : store.Serves t) {r : StrokeRecord} :
    r ∈ t ∧ r.boardId = store.boardId
      ↔ ∃ k ∈ store.strokes, StrokeRecord.ofStroke store.boardId k = r := by
  have hfilter : r ∈ t ∧ r.boardId = store.boardId
      ↔ r ∈ t.rows.filter fun r ↦ decide (r.boardId = store.boardId) := by
    rw [List.mem_filter, decide_eq_true_iff, Table.mem_rows]
  rw [hfilter, h, List.mem_map]
  rfl

theorem key_mem_iff (h : store.Serves t) :
    (store.boardId, k.seq) ∈ t.rows.map StrokeRecord.key
      ↔ k.seq ∈ store.strokes.rows.map PersistedStroke.seq := by
  constructor
  · intro hk
    obtain ⟨r, hr, hkey⟩ := List.mem_map.mp hk
    obtain ⟨hboard, hseq⟩ := Prod.mk.inj hkey
    obtain ⟨k', hk', rfl⟩ := h.mem_iff.mp ⟨hr, hboard⟩
    exact List.mem_map.mpr ⟨k', hk', hseq⟩
  · intro hk
    obtain ⟨k', hk', hseq⟩ := List.mem_map.mp hk
    exact List.mem_map.mpr ⟨_, (h.mem_iff.mpr ⟨k', hk', rfl⟩).1, Prod.ext rfl hseq⟩

theorem insertIgnore (h : store.Serves t) (k : PersistedStroke) :
    Serves { store with strokes := store.strokes.insertIgnore k }
      (t.insertIgnore (StrokeRecord.ofStroke store.boardId k)) := by
  unfold Serves at h ⊢
  by_cases htaken : k.seq ∈ store.strokes.rows.map PersistedStroke.seq
  · rw [Table.insertIgnore_of_mem htaken, Table.insertIgnore_of_mem (key_mem_iff h |>.mpr htaken)]
    exact h
  · have hfree : (StrokeRecord.ofStroke store.boardId k).key ∉ t.rows.map StrokeRecord.key :=
      fun hmem ↦ htaken ((key_mem_iff h).mp hmem)
    rw [Table.rows_insertIgnore_of_not_mem htaken, Table.rows_insertIgnore_of_not_mem hfree,
      List.filter_append, List.map_append, h]
    simp [StrokeRecord.ofStroke]

theorem insertIgnore_other (h : store.Serves t) (hboard : boardId ≠ store.boardId)
    (k : PersistedStroke) : store.Serves (t.insertIgnore (StrokeRecord.ofStroke boardId k)) := by
  by_cases htaken : (StrokeRecord.ofStroke boardId k).key ∈ t.rows.map StrokeRecord.key
  · rwa [Table.insertIgnore_of_mem htaken]
  · unfold Serves at h ⊢
    rw [Table.rows_insertIgnore_of_not_mem htaken, List.filter_append, h]
    simp [StrokeRecord.ofStroke, hboard]

theorem insertEach (h : store.Serves t) (batch : List PersistedStroke) :
    (store.insertBatch batch).Serves (t.insertEach store.boardId batch) := by
  suffices hall : Serves { store with strokes := store.strokes.insertAll batch }
      (t.insertEach store.boardId batch) by
    have heq : store.insertBatch batch
        = { store with strokes := store.strokes.insertAll batch } := by
      rw [← insertBatch_strokes]
      rfl
    rwa [heq]
  induction batch generalizing store t with
  | nil => exact h
  | cons k batch ih => exact ih (h.insertIgnore k)

theorem insertEach_other (h : store.Serves t) (hboard : boardId ≠ store.boardId)
    (batch : List PersistedStroke) : store.Serves (t.insertEach boardId batch) := by
  induction batch generalizing t with
  | nil => exact h
  | cons k batch ih => exact ih (h.insertIgnore_other hboard k)

theorem insertBatch (h : store.Serves t) {batch : List PersistedStroke} {faults : Faults}
    {s : Sql.Session Strokes}
    (hs : Synapse.insertBatch ⟨t, .none⟩ store.boardId batch faults = (s, true)) :
    (store.insertBatch batch).Serves s.committed := by
  rcases insertBatch_cases t store.boardId batch faults with heq | ⟨-, s', heq, -⟩
  · rw [heq] at hs
    cases hs
    exact h.insertEach batch
  · rw [heq] at hs
    cases hs

theorem loadSince (h : store.Serves t) (n : ℕ) :
    t.loadSince store.boardId n = some (store.loadSince n) :=
  Strokes.loadSince_of_rows h n

theorem matching (h : store.Serves t) (n : ℕ) :
    (t.matching store.boardId n).map StrokeRecord.seq = store.matching n := by
  have hsplit : t.matching store.boardId n
      = (t.rows.filter fun r ↦ decide (r.boardId = store.boardId)).filter
        fun r ↦ decide (r.seq ≤ n) := by
    rw [Strokes.matching, List.filter_filter]
    refine List.filter_congr fun r _ ↦ ?_
    exact (Bool.decide_and _ _).trans (Bool.and_comm _ _)
  rw [hsplit, h, List.filter_map, List.map_map]
  rfl

theorem deletable (h : store.Serves t) {victims : List StrokeRecord}
    (hvictims : t.Deletable store.boardId n victims) :
    store.Deletable n (victims.map StrokeRecord.seq) := by
  obtain ⟨hnodup, hmem, hlength⟩ := hvictims
  refine ⟨(List.nodup_map_iff_inj_on hnodup).mpr fun r hr r' hr' hseq ↦ ?_, fun m hm ↦ ?_, ?_⟩
  · obtain ⟨hin, hboard, -⟩ := Strokes.mem_matching.mp (hmem r hr)
    obtain ⟨hin', hboard', -⟩ := Strokes.mem_matching.mp (hmem r' hr')
    exact t.eq_of_key_eq hin hin' (Prod.ext (hboard.trans hboard'.symm) hseq)
  · obtain ⟨r, hr, rfl⟩ := List.mem_map.mp hm
    rw [← h.matching n]
    exact List.mem_map_of_mem (hmem r hr)
  · rw [List.length_map, hlength, ← h.matching n, List.length_map]

theorem deleteRows (h : store.Serves t) {victims : List StrokeRecord}
    (hvictims : t.Deletable store.boardId n victims) :
    (store.deleteRows (victims.map StrokeRecord.seq)).Serves (t.deleteRows victims) := by
  have hvictim : ∀ k ∈ store.strokes, StrokeRecord.ofStroke store.boardId k ∈ victims
      ↔ k.seq ∈ victims.map StrokeRecord.seq := by
    intro k hk
    refine ⟨fun hmem ↦ List.mem_map.mpr ⟨_, hmem, rfl⟩, fun hmem ↦ ?_⟩
    obtain ⟨r, hr, hseq⟩ := List.mem_map.mp hmem
    obtain ⟨hin, hboard, -⟩ := Strokes.mem_matching.mp (hvictims.2.1 r hr)
    have hrow := (h.mem_iff.mpr ⟨k, hk, rfl⟩).1
    rwa [← t.eq_of_key_eq hin hrow (Prod.ext hboard hseq)]
  unfold Serves at h ⊢
  have hswap : (t.deleteRows victims).rows.filter (fun r ↦ decide (r.boardId = store.boardId))
      = (t.rows.filter fun r ↦ decide (r.boardId = store.boardId)).filter
        fun r ↦ !decide (r ∈ victims) := by
    rw [Strokes.deleteRows, Table.deleteWhere, List.filter_filter, List.filter_filter]
    exact List.filter_congr fun r _ ↦ Bool.and_comm _ _
  have hboard : (store.deleteRows (victims.map StrokeRecord.seq)).boardId = store.boardId := rfl
  rw [hboard, hswap, h, List.filter_map, BoardStore.deleteRows, Table.deleteWhere]
  congr 1
  refine List.filter_congr fun k hk ↦ ?_
  rw [Function.comp_apply, decide_eq_decide.mpr (hvictim k hk)]

theorem deleteRows_other (h : store.Serves t) (hboard : boardId ≠ store.boardId)
    {victims : List StrokeRecord} (hvictims : t.Deletable boardId n victims) :
    store.Serves (t.deleteRows victims) := by
  unfold Serves at h ⊢
  rw [← h, Strokes.deleteRows, Table.deleteWhere, List.filter_filter]
  refine List.filter_congr fun r _ ↦ ?_
  by_cases hr : r ∈ victims
  · have hother := (Strokes.mem_matching.mp (hvictims.2.1 r hr)).2.1
    simp [hother, hboard]
  · simp [hr]

end Serves

end BoardStore

end Synapse
