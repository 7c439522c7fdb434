import Synapse.Domain
import Synapse.Table.Keyed

/-!
# The repositories, seen from one board

Every statement of `boardRepository.ts` and `strokeRepository.ts` is restricted to one board by
its `WHERE` clause or by the rows it inserts, so the part of the database it can read or write is
the row of `boards` and the rows of `strokes` with that board's id. `BoardStore` is that part.

The composite primary key `(board_id, seq)` becomes the key `seq` of a `Keyed.Table`, and
`ON CONFLICT (board_id, seq) DO NOTHING` its `insertAll`. Columns that no modelled statement reads
(`created_at`, `last_activity`, `password_hash`, `snapshot_url`) are left out, which makes `touch`
the identity.
-/

namespace Synapse

open Keyed

/-- Rows per multi-row INSERT statement. -/
def maxInsertRows : ℕ := 1000

/-- Rows deleted per DELETE statement during pruning. -/
def deleteBatchSize : ℕ := 1000

/-- The rows of one board. -/
structure BoardStore where
  /-- The id the rows are filtered by. -/
  boardId : String
  /-- `snapshot_seq` of the row of `boards`; `none` while the row does not exist. -/
  boardRow : Option ℕ := none
  /-- The rows of `strokes`. -/
  strokes : Table PersistedStroke.seq := Table.empty _

/-- Splits a list into consecutive pieces of at most `size` elements. -/
def chunk {α : Type*} (items : List α) (size : ℕ) : List (List α) :=
  (List.range ((items.length + size - 1) / size)).map fun i ↦ (items.drop (i * size)).take size

theorem flatten_map_range_take_drop {α : Type*} (items : List α) (size n : ℕ) :
    ((List.range n).map fun i ↦ (items.drop (i * size)).take size).flatten
      = items.take (n * size) := by
  induction n with
  | zero => simp
  | succ n ih =>
    rw [List.range_succ, List.map_append, List.flatten_append, ih, Nat.succ_mul, List.take_add]
    simp

theorem flatten_chunk {α : Type*} (items : List α) {size : ℕ} (hsize : 0 < size) :
    (chunk items size).flatten = items := by
  rw [chunk, flatten_map_range_take_drop]
  refine List.take_of_length_le ?_
  have hdiv := Nat.div_add_mod (items.length + size - 1) size
  have hmod := Nat.mod_lt (items.length + size - 1) hsize
  rw [Nat.mul_comm] at hdiv
  omega

namespace BoardStore

variable (store : BoardStore)

/-! ## `boards` -/

/-- `INSERT INTO boards … ON CONFLICT (id) DO NOTHING`. -/
def ensure : BoardStore := { store with boardRow := some (store.boardRow.getD 0) }

/-- The compaction baseline; `0` when the board is unknown. -/
def getSnapshotSeq : ℕ := store.boardRow.getD 0

/-- `UPDATE boards SET snapshot_seq`, a no-op when the row does not exist. -/
def setSnapshot (seq : ℕ) : BoardStore := { store with boardRow := store.boardRow.map fun _ ↦ seq }

/-! ## `strokes` -/

/-- Appends a batch, chunked into multi-row INSERT statements inside one transaction. -/
def insertBatch (batch : List PersistedStroke) : BoardStore :=
  { store with strokes := (chunk batch maxInsertRows).foldl Table.insertAll store.strokes }

/-- The strokes with `seq > sinceSeq`, ascending by seq. -/
def loadSince (sinceSeq : ℕ) : List PersistedStroke := store.strokes.above sinceSeq

/-- The number of rows retained for the board. -/
def count : ℕ := store.strokes.rows.length

/-- The Sequence_Numbers one LIMITed DELETE of `deleteThrough` can match. -/
def matching (throughSeq : ℕ) : List ℕ :=
  (store.strokes.rows.filter fun k ↦ decide (k.seq ≤ throughSeq)).map PersistedStroke.seq

/-- Whether one LIMITed DELETE may remove exactly the rows numbered `victims`: distinct matching
rows, as many as there are up to the limit. PostgreSQL is free to pick any. -/
def Deletable (throughSeq : ℕ) (victims : List ℕ) : Prop :=
  victims.Nodup ∧ (∀ n ∈ victims, n ∈ store.matching throughSeq) ∧
    victims.length = min deleteBatchSize (store.matching throughSeq).length

instance (throughSeq : ℕ) (victims : List ℕ) : Decidable (store.Deletable throughSeq victims) :=
  inferInstanceAs (Decidable (_ ∧ _ ∧ _))

/-- One DELETE statement. -/
def deleteRows (victims : List ℕ) : BoardStore :=
  { store with strokes := store.strokes.deleteWhere fun k ↦ decide (k.seq ∈ victims) }

/-- The rows a DELETE statement removes. -/
def deletedRows (victims : List ℕ) : List PersistedStroke :=
  store.strokes.rows.filter fun k ↦ decide (k.seq ∈ victims)

/-! ## What the statements do -/

variable {store}

@[simp] theorem setSnapshot_strokes (seq : ℕ) : (store.setSnapshot seq).strokes = store.strokes :=
  rfl

theorem getSnapshotSeq_setSnapshot (h : store.boardRow.isSome) (seq : ℕ) :
    (store.setSnapshot seq).getSnapshotSeq = seq := by
  obtain ⟨n, hn⟩ := Option.isSome_iff_exists.mp h
  simp [setSnapshot, getSnapshotSeq, hn]

theorem foldl_insertAll (t : Table PersistedStroke.seq) (groups : List (List PersistedStroke)) :
    groups.foldl Table.insertAll t = t.insertAll groups.flatten := by
  induction groups generalizing t with
  | nil => rfl
  | cons g groups ih => rw [List.foldl_cons, ih, List.flatten_cons, Table.insertAll_append]

/-- Chunking is invisible. -/
@[simp] theorem insertBatch_strokes (batch : List PersistedStroke) :
    (store.insertBatch batch).strokes = store.strokes.insertAll batch := by
  rw [insertBatch, foldl_insertAll, flatten_chunk batch (by decide)]

@[simp] theorem mem_loadSince {n : ℕ} {k : PersistedStroke} :
    k ∈ store.loadSince n ↔ k ∈ store.strokes ∧ n < k.seq :=
  Table.mem_above

theorem ascending_loadSince (store : BoardStore) (n : ℕ) :
    Ascending PersistedStroke.seq (store.loadSince n) :=
  store.strokes.ascending_above n

theorem mem_matching {n m : ℕ} :
    m ∈ store.matching n ↔ ∃ k ∈ store.strokes, k.seq = m ∧ m ≤ n := by
  rw [matching, List.mem_map]
  constructor
  · rintro ⟨k, hk, rfl⟩
    rw [List.mem_filter, decide_eq_true_iff] at hk
    exact ⟨k, hk.1, rfl, hk.2⟩
  · rintro ⟨k, hk, rfl, hle⟩
    exact ⟨k, List.mem_filter.mpr ⟨hk, decide_eq_true hle⟩, rfl⟩

@[simp] theorem mem_deletedRows {victims : List ℕ} {k : PersistedStroke} :
    k ∈ store.deletedRows victims ↔ k ∈ store.strokes ∧ k.seq ∈ victims := by
  rw [deletedRows, List.mem_filter, decide_eq_true_iff, Table.mem_rows]

@[simp] theorem mem_deleteRows {victims : List ℕ} {k : PersistedStroke} :
    k ∈ (store.deleteRows victims).strokes ↔ k ∈ store.strokes ∧ k.seq ∉ victims := by
  rw [deleteRows, Table.mem_deleteWhere, decide_eq_false_iff_not]

theorem Deletable.le {n : ℕ} {victims : List ℕ} (h : store.Deletable n victims) {m : ℕ}
    (hm : m ∈ victims) : m ≤ n :=
  let ⟨_, _, _, hle⟩ := mem_matching.mp (h.2.1 m hm)
  hle

end BoardStore

end Synapse
