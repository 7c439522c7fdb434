import Synapse.Store.RoundTrip

/-!
# Batches of strokes

`insertBatch` sends one statement for a batch that fits into one, and a transaction of several
otherwise. Either way the batch lands as if its strokes were inserted one by one, or not at all.
-/

namespace Synapse

open Keyed Sql

/-- The strokes of a board inserted one by one, an existing `(board, seq)` winning. -/
def Strokes.insertEach (t : Strokes) (boardId : String) (strokes : List PersistedStroke) :
    Strokes :=
  strokes.foldl (fun t stroke ↦ t.insertIgnore (StrokeRecord.ofStroke boardId stroke)) t

theorem Strokes.insertEach_eq (t : Strokes) (boardId : String) (strokes : List PersistedStroke) :
    t.insertEach boardId strokes = t.insertAll (strokes.map (StrokeRecord.ofStroke boardId)) := by
  rw [insertEach, Table.insertAll, List.foldl_map]

theorem ne_nil_of_mem_chunk {α : Type*} {items group : List α} {size : ℕ} (hsize : 0 < size)
    (h : group ∈ chunk items size) : group ≠ [] := by
  obtain ⟨i, hi, rfl⟩ := List.mem_map.mp h
  have hlt : i * size < items.length := by
    have hle : (i + 1) * size ≤ items.length + size - 1 :=
      (Nat.le_div_iff_mul_le hsize).mp (List.mem_range.mp hi)
    rw [Nat.succ_mul] at hle
    omega
  rw [← List.length_pos_iff, List.length_take, List.length_drop]
  omega

theorem runAll_groups (boardId : String) {groups : List (List PersistedStroke)}
    (hne : ∀ group ∈ groups, group ≠ []) (t : Strokes) :
    Session.runAll t (groups.map fun group ↦ Strokes.query (buildInsert boardId group))
      = some (t.insertEach boardId groups.flatten) := by
  induction groups generalizing t with
  | nil => rfl
  | cons group groups ih =>
    have hgroup := query_buildInsert boardId (hne group List.mem_cons_self) t
    rw [List.map_cons, Session.runAll, List.foldlM_cons, hgroup]
    change Session.runAll _ _ = _
    rw [ih fun g hg ↦ hne g (List.mem_cons_of_mem _ hg), Strokes.insertEach_eq,
      Strokes.insertEach_eq, List.flatten_cons, List.map_append, Table.insertAll_append]

theorem Strokes.insertEach_self (t : Strokes) (boardId : String) (strokes : List PersistedStroke) :
    (t.insertEach boardId strokes).insertEach boardId strokes = t.insertEach boardId strokes := by
  rw [insertEach_eq, insertEach_eq]
  refine Table.insertAll_of_taken fun r hr ↦ ?_
  obtain ⟨r', hr', hkey⟩ := Table.exists_mem_insertAll_key_eq (t := t) hr
  exact ⟨r', hr', hkey⟩

/-- A call resolves with its batch inserted, or rejects with nothing done; it resolves when no
request fails. -/
theorem insertBatch_cases (t : Strokes) (boardId : String) (batch : List PersistedStroke)
    (faults : Faults) :
    insertBatch ⟨t, .none⟩ boardId batch faults = (⟨t.insertEach boardId batch, .none⟩, true) ∨
    ((faults.connect = true ∨ ∃ i, faults.request i = true) ∧
      ∃ s, insertBatch ⟨t, .none⟩ boardId batch faults = (s, false) ∧ s.committed = t) := by
  have hflatten : (chunk batch maxInsertRows).flatten = batch := flatten_chunk batch (by decide)
  have hne : ∀ group ∈ chunk batch maxInsertRows, group ≠ [] :=
    fun group hgroup ↦ ne_nil_of_mem_chunk (by decide) hgroup
  unfold insertBatch
  by_cases hnil : batch = []
  · rw [if_pos hnil, hnil]
    exact Or.inl rfl
  rw [if_neg hnil]
  split
  · -- one statement, which is the batch
    next group hchunk =>
      rw [hchunk, List.flatten_cons, List.flatten_nil, List.append_nil] at hflatten
      rw [hflatten]
      cases hfails : faults.request 0 with
      | false =>
        rw [Session.send_run (query_buildInsert boardId hnil t), ← Strokes.insertEach_eq]
        exact Or.inl rfl
      | true =>
        rw [Session.send_run_fails]
        exact Or.inr ⟨Or.inr ⟨0, hfails⟩, _, rfl, rfl⟩
  · next groups _ =>
      cases hconnect : faults.connect with
      | true => exact Or.inr ⟨Or.inl rfl, _, rfl, rfl⟩
      | false =>
        have hrun := runAll_groups boardId hne t
        rw [hflatten] at hrun
        rw [if_neg Bool.false_ne_true]
        rcases Session.transaction_cases t faults.request faults.rollback
            ((chunk batch maxInsertRows).map fun group ↦ Strokes.query (buildInsert boardId group))
          with ⟨db, hdb, -, hsent⟩ | ⟨hwhy, s, hsent, hcommitted⟩
        · rw [hrun] at hdb
          cases hdb
          exact Or.inl hsent
        · refine Or.inr ⟨Or.inr ?_, s, hsent, hcommitted⟩
          rcases hwhy with hnone | ⟨i, -, hi⟩
          · rw [hrun] at hnone
            cases hnone
          · exact ⟨i, hi⟩

/-- **A batch lands as a whole.** A call that resolves has inserted its strokes one by one, an
existing row winning; a call that rejects has left the table as it was; and a further call with the
batch leaves it as it is. A call rejects for a failing request only. -/
theorem insertBatch_atomic (t : Strokes) (boardId : String) (batch : List PersistedStroke)
    (faults : Faults) :
    let r := insertBatch ⟨t, .none⟩ boardId batch faults
    (r.2 = true → r.1 = ⟨t.insertEach boardId batch, .none⟩ ∧
      ∀ faults', (insertBatch r.1 boardId batch faults').1.committed = r.1.committed) ∧
    (r.2 = false → r.1.committed = t) ∧
    (faults.connect = false → (∀ i, faults.request i = false) → r.2 = true) := by
  intro r
  rcases insertBatch_cases t boardId batch faults with hr | ⟨hwhy, s, hr, hs⟩
  · rw [show r = (⟨t.insertEach boardId batch, .none⟩, true) from hr]
    refine ⟨fun _ ↦ ⟨rfl, fun faults' ↦ ?_⟩, fun h ↦ Bool.noConfusion h, fun _ _ ↦ rfl⟩
    rcases insertBatch_cases (t.insertEach boardId batch) boardId batch faults' with
      hr' | ⟨-, s, hr', hs⟩
    · rw [hr', Strokes.insertEach_self]
    · rw [hr', hs]
  · rw [show r = (s, false) from hr]
    refine ⟨fun h ↦ Bool.noConfusion h, fun _ ↦ hs, fun hconnect hrequest ↦ ?_⟩
    rcases hwhy with hwhy | ⟨i, hi⟩
    · rw [hconnect] at hwhy
      cases hwhy
    · rw [hrequest i] at hi
      cases hi

end Synapse
