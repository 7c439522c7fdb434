import Synapse.Store.StrokeTable
import Synapse.Transition.Inevitable

/-!
# Pruning in batches

`deleteThrough` sends one LIMITed DELETE after the other, until one removes fewer rows than its
limit. PostgreSQL is free to pick the rows, and others may insert rows beyond the bound between two
statements. Every statement but the last takes a full batch, so their number is that of the matching
rows over the size of a batch, and one more; when that leaves no remainder the last statement
removes nothing.
-/

namespace Synapse

open Keyed Transition Machine

/-! ## One statement -/

/-- `board_id = $1 AND seq <= $2`. -/
def StrokeRecord.Through (boardId : String) (throughSeq : ℕ) (r : StrokeRecord) : Prop :=
  r.boardId = boardId ∧ r.seq ≤ throughSeq

instance (boardId : String) (throughSeq : ℕ) :
    DecidablePred (StrokeRecord.Through boardId throughSeq) :=
  fun _ ↦ inferInstanceAs (Decidable (_ ∧ _))

namespace Strokes

/-- The rows one DELETE of `deleteThrough` can match. -/
def matching (t : Strokes) (boardId : String) (throughSeq : ℕ) : List StrokeRecord :=
  t.rows.filter fun r ↦ decide (r.Through boardId throughSeq)

/-- Whether one LIMITed DELETE may remove exactly these rows: distinct matching rows, as many as
there are up to the limit. -/
def Deletable (t : Strokes) (boardId : String) (throughSeq : ℕ) (victims : List StrokeRecord) :
    Prop :=
  victims.Nodup ∧ (∀ r ∈ victims, r ∈ t.matching boardId throughSeq) ∧
    victims.length = min deleteBatchSize (t.matching boardId throughSeq).length

instance (t : Strokes) (boardId : String) (throughSeq : ℕ) (victims : List StrokeRecord) :
    Decidable (t.Deletable boardId throughSeq victims) :=
  inferInstanceAs (Decidable (_ ∧ _ ∧ _))

/-- One DELETE statement. -/
def deleteRows (t : Strokes) (victims : List StrokeRecord) : Strokes :=
  t.deleteWhere fun r ↦ decide (r ∈ victims)

/-- The rows a `deleteThrough` does not concern. -/
def others (t : Strokes) (boardId : String) (throughSeq : ℕ) : List StrokeRecord :=
  t.rows.filter fun r ↦ !decide (r.Through boardId throughSeq)

variable {t u : Strokes} {boardId : String} {throughSeq : ℕ} {victims : List StrokeRecord}
  {r : StrokeRecord}

theorem mem_matching :
    r ∈ t.matching boardId throughSeq ↔ r ∈ t ∧ r.Through boardId throughSeq := by
  rw [matching, List.mem_filter, decide_eq_true_iff, Table.mem_rows]

theorem mem_others :
    r ∈ t.others boardId throughSeq ↔ r ∈ t ∧ ¬ r.Through boardId throughSeq := by
  rw [others, List.mem_filter, Bool.not_eq_true', decide_eq_false_iff_not, Table.mem_rows]

theorem nodup_matching (t : Strokes) (boardId : String) (throughSeq : ℕ) :
    (t.matching boardId throughSeq).Nodup :=
  t.nodup_keys.of_map.filter _

theorem deletable_take (t : Strokes) (boardId : String) (throughSeq : ℕ) :
    t.Deletable boardId throughSeq ((t.matching boardId throughSeq).take deleteBatchSize) :=
  ⟨(nodup_matching t boardId throughSeq).sublist (List.take_sublist _ _),
    fun _ hr ↦ List.mem_of_mem_take hr, List.length_take⟩

theorem length_matching_deleteRows (h : t.Deletable boardId throughSeq victims) :
    ((t.deleteRows victims).matching boardId throughSeq).length + victims.length
      = (t.matching boardId throughSeq).length := by
  have hrest : (t.deleteRows victims).matching boardId throughSeq
      = (t.matching boardId throughSeq).filter fun r ↦ !decide (r ∈ victims) := by
    rw [matching, deleteRows, Table.deleteWhere, matching, List.filter_filter, List.filter_filter]
    exact List.filter_congr fun r _ ↦ Bool.and_comm _ _
  have hgone : ((t.matching boardId throughSeq).filter fun r ↦ decide (r ∈ victims)).Perm
      victims := by
    rw [List.perm_ext_iff_of_nodup ((nodup_matching t boardId throughSeq).filter _) h.1]
    intro r
    rw [List.mem_filter, decide_eq_true_iff]
    exact ⟨And.right, fun hr ↦ ⟨h.2.1 r hr, hr⟩⟩
  rw [hrest, ← hgone.length_eq, Nat.add_comm]
  exact (List.length_eq_length_filter_add _).symm

theorem others_deleteRows (h : t.Deletable boardId throughSeq victims) :
    (t.deleteRows victims).others boardId throughSeq = t.others boardId throughSeq := by
  rw [others, deleteRows, Table.deleteWhere, others, List.filter_filter]
  refine List.filter_congr fun r _ ↦ ?_
  by_cases hr : r ∈ victims
  · have hthrough := (mem_matching.mp (h.2.1 r hr)).2
    simp [hr, hthrough]
  · simp [hr]

/-- Whether a row can be inserted depends on the rows of its kind only. -/
theorem others_insertIgnore (htu : t.others boardId throughSeq = u.others boardId throughSeq)
    (hr : ¬ r.Through boardId throughSeq) :
    others (t.insertIgnore r) boardId throughSeq
      = others (u.insertIgnore r) boardId throughSeq := by
  have hkey : ∀ v : Strokes, r.key ∈ v.rows.map StrokeRecord.key
      ↔ r.key ∈ (v.others boardId throughSeq).map StrokeRecord.key := by
    intro v
    rw [List.mem_map, List.mem_map]
    refine ⟨fun ⟨r', hr', heq⟩ ↦ ⟨r', mem_others.mpr ⟨hr', fun hthrough ↦ hr ?_⟩, heq⟩,
      fun ⟨r', hr', heq⟩ ↦ ⟨r', (mem_others.mp hr').1, heq⟩⟩
    obtain ⟨hboard, hseq⟩ := Prod.mk.inj heq
    exact ⟨hboard.symm.trans hthrough.1, hseq.symm.trans_le hthrough.2⟩
  by_cases htaken : r.key ∈ t.rows.map StrokeRecord.key
  · rw [Table.insertIgnore_of_mem htaken,
      Table.insertIgnore_of_mem ((hkey u).mpr (htu ▸ (hkey t).mp htaken)), htu]
  · have hfree : r.key ∉ u.rows.map StrokeRecord.key :=
      fun h ↦ htaken ((hkey t).mpr (htu ▸ (hkey u).mp h))
    unfold others at htu ⊢
    rw [Table.rows_insertIgnore_of_not_mem htaken, Table.rows_insertIgnore_of_not_mem hfree,
      List.filter_append, List.filter_append, htu]

theorem matching_insertIgnore (hr : ¬ r.Through boardId throughSeq) :
    matching (t.insertIgnore r) boardId throughSeq = t.matching boardId throughSeq := by
  by_cases htaken : r.key ∈ t.rows.map StrokeRecord.key
  · rw [Table.insertIgnore_of_mem htaken]
  · rw [matching, Table.rows_insertIgnore_of_not_mem htaken, List.filter_append,
      List.filter_singleton, decide_eq_false hr, cond_false, List.append_nil, matching]

theorem selectSince_congr (htu : t.others boardId throughSeq = u.others boardId throughSeq) :
    t.selectSince boardId throughSeq = u.selectSince boardId throughSeq := by
  have hsplit : ∀ v : Strokes,
      v.rows.filter (fun r ↦ decide (r.boardId = boardId ∧ throughSeq < r.seq))
        = (v.others boardId throughSeq).filter
          fun r ↦ decide (r.boardId = boardId ∧ throughSeq < r.seq) := by
    intro v
    rw [others, List.filter_filter]
    refine List.filter_congr fun r _ ↦ ?_
    by_cases hsince : r.boardId = boardId ∧ throughSeq < r.seq
    · have hthrough : ¬ r.Through boardId throughSeq := fun h ↦ absurd h.2 (not_le.mpr hsince.2)
      simp [hsince, hthrough]
    · simp [hsince]
  rw [selectSince, selectSince, hsplit t, hsplit u, htu]

theorem ascending_selectSince (t : Strokes) (boardId : String) (sinceSeq : ℕ) :
    Ascending StrokeRecord.seq (t.selectSince boardId sinceSeq) := by
  refine ascending_sortByKey ?_
  refine (List.nodup_map_iff_inj_on (t.nodup_keys.of_map.filter _)).mpr fun r hr r' hr' heq ↦ ?_
  rw [List.mem_filter, decide_eq_true_iff] at hr hr'
  exact t.eq_of_key_eq hr.1 hr'.1 (Prod.ext (hr.2.1.trans hr'.2.1.symm) heq)

end Strokes

/-! ## The loop -/

/-- Whether a call is under way, and how it has ended. -/
inductive DeletionStatus
  | running
  | resolved
  | rejected
  deriving DecidableEq

/-- A call of `deleteThrough`, and the table. -/
structure Deletion where
  strokes : Strokes
  status : DeletionStatus := .running
  /-- The number of statements that have succeeded. -/
  statements : ℕ := 0
  /-- The rows that others have inserted meanwhile. -/
  inserted : List StrokeRecord := []

inductive DeletionAction
  /-- A statement that removes these rows. -/
  | delete (victims : List StrokeRecord)
  /-- A statement that fails. -/
  | fail
  /-- An insertion by others. -/
  | insert (r : StrokeRecord)

/-- Deletes in batches until a statement removes fewer rows than a batch. Others insert no rows at
or below the bound. -/
def deleteThrough (boardId : String) (throughSeq : ℕ) : Machine Deletion DeletionAction where
  init s := ∃ t, s = { strokes := t }
  step s
    | .delete victims =>
      if s.status = .running ∧ s.strokes.Deletable boardId throughSeq victims then
        some { s with
          strokes := s.strokes.deleteRows victims
          status := if victims.length < deleteBatchSize then .resolved else .running
          statements := s.statements + 1 }
      else none
    | .fail => if s.status = .running then some { s with status := .rejected } else none
    | .insert r =>
      if r.Through boardId throughSeq then none
      else
        some { s with
          strokes := s.strokes.insertIgnore r
          inserted := s.inserted ++ [r] }

namespace Deletion

variable {boardId : String} {throughSeq : ℕ} {t : Strokes} {s u : Deletion} {a : DeletionAction}
  {victims : List StrokeRecord}

/-- What holds of a call on the table `t`. -/
structure Prunes (boardId : String) (throughSeq : ℕ) (t : Strokes) (s : Deletion) : Prop where
  /-- The other rows are those there would be without the call. -/
  kept : s.strokes.others boardId throughSeq
    = Strokes.others (t.insertAll s.inserted) boardId throughSeq
  /-- So far all statements have taken full batches. -/
  full : s.status = .running →
    (s.strokes.matching boardId throughSeq).length + s.statements * deleteBatchSize
      = (t.matching boardId throughSeq).length
  /-- The last one has not. -/
  done : s.status = .resolved → s.strokes.matching boardId throughSeq = [] ∧
    s.statements = (t.matching boardId throughSeq).length / deleteBatchSize + 1
  bounded : s.statements ≤ (t.matching boardId throughSeq).length / deleteBatchSize + 1

theorem Prunes.of_start (boardId : String) (throughSeq : ℕ) (t : Strokes) :
    Prunes boardId throughSeq t { strokes := t } where
  kept := rfl
  full _ := by simp
  done h := nomatch h
  bounded := Nat.zero_le _

theorem Prunes.delete (h : Prunes boardId throughSeq t s) (hrunning : s.status = .running)
    (hvictims : s.strokes.Deletable boardId throughSeq victims) :
    Prunes boardId throughSeq t { s with
      strokes := s.strokes.deleteRows victims
      status := if victims.length < deleteBatchSize then .resolved else .running
      statements := s.statements + 1 } := by
  have hsize : 0 < deleteBatchSize := by decide
  have hfull := h.full hrunning
  have hlength := Strokes.length_matching_deleteRows hvictims
  have htaken := hvictims.2.2
  have hkept : (s.strokes.deleteRows victims).others boardId throughSeq
      = Strokes.others (t.insertAll s.inserted) boardId throughSeq :=
    (Strokes.others_deleteRows hvictims).trans h.kept
  by_cases hlt : victims.length < deleteBatchSize
  · -- the victims were all there was
    have hall : (s.strokes.matching boardId throughSeq).length = victims.length := by omega
    have hnone : ((s.strokes.deleteRows victims).matching boardId throughSeq).length = 0 := by
      omega
    have hstatements : s.statements + 1
        = (t.matching boardId throughSeq).length / deleteBatchSize + 1 := by
      rw [← hfull, hall, Nat.add_mul_div_right _ _ hsize, Nat.div_eq_of_lt hlt, Nat.zero_add]
    refine ⟨hkept, fun hstatus ↦ ?_, fun _ ↦
      ⟨List.eq_nil_of_length_eq_zero hnone, hstatements⟩, hstatements.le⟩
    rw [if_pos hlt] at hstatus
    cases hstatus
  · have hfull' : ((s.strokes.deleteRows victims).matching boardId throughSeq).length
        + (s.statements + 1) * deleteBatchSize = (t.matching boardId throughSeq).length := by
      rw [Nat.succ_mul]
      omega
    refine ⟨hkept, fun _ ↦ hfull', fun hstatus ↦ ?_, ?_⟩
    · rw [if_neg hlt] at hstatus
      cases hstatus
    · have hle := (Nat.le_div_iff_mul_le hsize).mpr (hfull' ▸ Nat.le_add_left _ _)
      exact hle.trans (Nat.le_succ _)

theorem Prunes.fail (h : Prunes boardId throughSeq t s) :
    Prunes boardId throughSeq t { s with status := .rejected } where
  kept := h.kept
  full hstatus := nomatch hstatus
  done hstatus := nomatch hstatus
  bounded := h.bounded

theorem Prunes.insert (h : Prunes boardId throughSeq t s) {r : StrokeRecord}
    (hr : ¬ r.Through boardId throughSeq) :
    Prunes boardId throughSeq t { s with
      strokes := s.strokes.insertIgnore r
      inserted := s.inserted ++ [r] } := by
  have hmatching := Strokes.matching_insertIgnore (t := s.strokes) hr
  refine ⟨?_, fun hstatus ↦ ?_, fun hstatus ↦ ?_, h.bounded⟩
  · rw [Table.insertAll_append]
    exact Strokes.others_insertIgnore h.kept hr
  · rw [hmatching]
    exact h.full hstatus
  · rw [hmatching]
    exact h.done hstatus

theorem Prunes.step (h : Prunes boardId throughSeq t s)
    (hs : (deleteThrough boardId throughSeq).step s a = some u) :
    Prunes boardId throughSeq t u := by
  cases a with
  | delete victims =>
    obtain ⟨⟨hrunning, hvictims⟩, rfl⟩ : _ ∧ _ = u := by
      simpa [deleteThrough] using hs
    exact h.delete hrunning hvictims
  | fail =>
    obtain ⟨-, rfl⟩ : _ ∧ _ = u := by simpa [deleteThrough] using hs
    exact h.fail
  | insert r =>
    obtain ⟨hr, rfl⟩ : _ ∧ _ = u := by simpa [deleteThrough] using hs
    exact h.insert hr

/-- The statements of the call that succeed. -/
def Deletes (_ : Deletion) : DeletionAction → Prop
  | .delete _ => True
  | _ => False

/-- Left to itself a call resolves, whichever rows its statements remove. -/
theorem inevitable (hrunning : s.status = .running) :
    (deleteThrough boardId throughSeq).Inevitable Deletes (fun u ↦ u.status = .resolved) s := by
  refine Inevitable.of_rank (P := fun u ↦ u.status ≠ .rejected)
    (fun u ↦ (u.strokes.matching boardId throughSeq).length + if u.status = .running then 1 else 0)
    (fun u hu hgoal ↦ ?_) (fun u a v hu hgoal hok hs ↦ ?_) (by rw [hrunning]; decide)
  · have hstatus : u.status = .running := by
      cases h : u.status with
      | running => rfl
      | resolved => exact absurd h hgoal
      | rejected => exact absurd h hu
    exact ⟨.delete _, _, trivial,
      if_pos ⟨hstatus, Strokes.deletable_take u.strokes boardId throughSeq⟩⟩
  · cases a with
    | fail => exact hok.elim
    | insert r => exact hok.elim
    | delete victims =>
      obtain ⟨⟨hstatus, hvictims⟩, rfl⟩ : _ ∧ _ = v := by
        simpa [deleteThrough] using hs
      have hsize : 0 < deleteBatchSize := by decide
      have hlength := Strokes.length_matching_deleteRows hvictims
      by_cases hlt : victims.length < deleteBatchSize
      · simp only [if_pos hlt, hstatus]
        exact ⟨by decide, by simp; omega⟩
      · simp only [if_neg hlt, hstatus]
        exact ⟨by decide, by simp; omega⟩

end Deletion

/-- **Pruning ends and is exact.** A call of `deleteThrough`, whichever rows its statements remove
and whatever others insert beyond the bound meanwhile: it sends as many statements as there are full
batches, and one more; while it runs, it is bound to resolve if left to itself; when it has, no row
at or below the bound is left; and at any time the other rows are those there would be without
it, with those beyond the bound in order. -/
theorem deleteThrough_exact (boardId : String) (throughSeq : ℕ) (t : Strokes) {s : Deletion}
    (h : (deleteThrough boardId throughSeq).Steps anyStep { strokes := t } s) :
    s.statements ≤ (t.matching boardId throughSeq).length / deleteBatchSize + 1 ∧
    (s.status = .running → (deleteThrough boardId throughSeq).Inevitable Deletion.Deletes
      (fun u ↦ u.status = .resolved) s) ∧
    (s.status = .resolved → ∀ r ∈ s.strokes, ¬ r.Through boardId throughSeq) ∧
    (∀ r : StrokeRecord, ¬ r.Through boardId throughSeq →
      (r ∈ s.strokes ↔ r ∈ t.insertAll s.inserted)) ∧
    s.strokes.selectSince boardId throughSeq
      = Strokes.selectSince (t.insertAll s.inserted) boardId throughSeq ∧
    Ascending StrokeRecord.seq (s.strokes.selectSince boardId throughSeq) := by
  have hprunes := h.invariant (Deletion.Prunes.of_start boardId throughSeq t)
    fun _ _ _ hu _ hs ↦ hu.step hs
  refine ⟨hprunes.bounded, Deletion.inevitable, fun hresolved r hr hthrough ↦ ?_,
    fun r hr ↦ ?_, Strokes.selectSince_congr hprunes.kept, Strokes.ascending_selectSince _ _ _⟩
  · have hmem := Strokes.mem_matching.mpr ⟨hr, hthrough⟩
    rw [(hprunes.done hresolved).1] at hmem
    exact List.not_mem_nil hmem
  · have hothers : r ∈ s.strokes.others boardId throughSeq
        ↔ r ∈ Strokes.others (t.insertAll s.inserted) boardId throughSeq := by rw [hprunes.kept]
    rw [Strokes.mem_others, Strokes.mem_others] at hothers
    exact ⟨fun hs ↦ (hothers.mp ⟨hs, hr⟩).1, fun ht ↦ (hothers.mpr ⟨ht, hr⟩).1⟩

/-- Two rows of a board, and one of another. -/
private def threeRows : Strokes where
  rows := [⟨"board-1", 1, "a", "ada", .null, 0⟩, ⟨"board-1", 2, "b", "ada", .null, 0⟩,
    ⟨"board-2", 1, "c", "bob", .null, 0⟩]
  nodup_keys := by decide

/-- The first row of the board is pruned, while another comes in. -/
private def pruneRun : List DeletionAction :=
  [.insert ⟨"board-1", 3, "d", "ada", .null, 0⟩, .delete [⟨"board-1", 1, "a", "ada", .null, 0⟩]]

theorem deleteThrough_exact_three : ∃ s, (deleteThrough "board-1" 1).exec { strokes := threeRows }
    pruneRun = some s ∧ s.status = .resolved ∧ s.statements = 1 ∧
      ∀ r ∈ s.strokes, ¬ r.Through "board-1" 1 := by
  obtain ⟨s, hexec, hsteps, hp⟩ := exists_of_exec (M := deleteThrough "board-1" 1)
    (p := fun s ↦ decide (s.status = .resolved ∧ s.statements = 1)) { strokes := threeRows }
    pruneRun (by decide)
  obtain ⟨hstatus, hstatements⟩ := of_decide_eq_true hp
  exact ⟨s, hexec, hstatus, hstatements,
    (deleteThrough_exact "board-1" 1 threeRows hsteps).2.2.1 hstatus⟩

end Synapse
