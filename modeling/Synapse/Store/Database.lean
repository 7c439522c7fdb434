import Synapse.Store.OneBoard
import Synapse.Table.Lookup

/-!
# The database

The two tables of the migration and the foreign key between them, with the statements of
`boardRepository.ts` and `strokeRepository.ts`. A row of `strokes` refers to a row of `boards`, so
an INSERT is in error while its board has no row. Nothing deletes a row of `boards`, hence the
cascade of the foreign key is never used.

A time is in microseconds; `now` is the time at which the database runs a statement.
-/

namespace Synapse

open Keyed Sql

/-- A row of `boards`. -/
structure BoardRecord where
  id : String
  createdAt : ℤ
  lastActivity : ℤ
  passwordHash : Option String := none
  snapshotSeq : ℕ := 0
  snapshotUrl : Option String := none
  deriving DecidableEq

structure Database where
  boards : Table BoardRecord.id
  strokes : Strokes
  /-- `strokes.board_id` refers to `boards.id`. -/
  references : ∀ r ∈ strokes.rows, r.boardId ∈ boards.rows.map BoardRecord.id

namespace Database

variable (db : Database)

/-! ## `boardRepository.ts` -/

/-- The boards that have a row. -/
def ids : List String := db.boards.rows.map BoardRecord.id

/-- The row of a board. -/
def board (boardId : String) : Option BoardRecord := db.boards.get? boardId

/-- `INSERT INTO boards (id) VALUES ($1) ON CONFLICT (id) DO NOTHING`. -/
def ensure (now : ℤ) (boardId : String) : Database where
  boards := db.boards.insertIgnore { id := boardId, createdAt := now, lastActivity := now }
  strokes := db.strokes
  references r hr := by
    obtain ⟨b, hb, hid⟩ := List.mem_map.mp (db.references r hr)
    exact List.mem_map.mpr ⟨b, Table.mem_insertIgnore.mpr (Or.inl hb), hid⟩

/-- `UPDATE boards SET … WHERE id = $1`. -/
def update (boardId : String) (set : BoardRecord → BoardRecord) : Database :=
  match db.board boardId with
  | none => db
  | some b =>
    { boards := db.boards.put { set b with id := boardId }
      strokes := db.strokes
      references := fun r hr ↦ by
        obtain ⟨b', hb', hid⟩ := List.mem_map.mp (db.references r hr)
        by_cases hboard : b'.id = boardId
        · exact List.mem_map.mpr ⟨_, Table.mem_put.mpr (Or.inl rfl), hboard.symm.trans hid⟩
        · exact List.mem_map.mpr ⟨b', Table.mem_put.mpr (Or.inr ⟨hb', hboard⟩), hid⟩ }

/-- The compaction baseline; `0` when the board is unknown. -/
def getSnapshotSeq (boardId : String) : ℕ :=
  match db.board boardId with
  | none => 0
  | some b => b.snapshotSeq

/-- Without a `url` the column is cleared. -/
def setSnapshot (boardId : String) (seq : ℕ) (url : Option String) : Database :=
  db.update boardId fun b ↦ { b with snapshotSeq := seq, snapshotUrl := url }

def getPasswordHash (boardId : String) : Option String :=
  match db.board boardId with
  | none => none
  | some b => b.passwordHash

def touch (now : ℤ) (boardId : String) : Database :=
  db.update boardId fun b ↦ { b with lastActivity := now }

/-! ## `strokeRepository.ts` -/

/-- An INSERT into `strokes`; also in error when one of its rows refers to no board. -/
def query (q : String × List SqlValue) : Option Database :=
  (db.strokes.query q).bind fun strokes ↦
    if h : ∀ r ∈ strokes.rows, r.boardId ∈ db.ids then some ⟨db.boards, strokes, h⟩ else none

/-- The statements of an `insertBatch`, none of which fails by itself. They land together. -/
def insertBatch (boardId : String) (batch : List PersistedStroke) : Option Database :=
  Session.runAll db ((chunk batch maxInsertRows).map fun group db ↦
    db.query (buildInsert boardId group))

/-- The number of rows of a board. -/
def count (boardId : String) : ℕ :=
  (db.strokes.rows.filter fun r ↦ decide (r.boardId = boardId)).length

/-- One DELETE statement. -/
def deleteRows (victims : List StrokeRecord) : Database where
  boards := db.boards
  strokes := db.strokes.deleteRows victims
  references r hr := db.references r (List.mem_of_mem_filter hr)

/-! ## What the statements do -/

variable {db} {now : ℤ} {boardId b : String} {batch : List PersistedStroke}

theorem board_eq_some {r : BoardRecord} :
    db.board boardId = some r ↔ r ∈ db.boards ∧ r.id = boardId :=
  Table.get?_eq_some

theorem mem_ids : boardId ∈ db.ids ↔ ∃ r, db.board boardId = some r := by
  rw [ids, List.mem_map]
  exact exists_congr fun r ↦ board_eq_some.symm

theorem board_ensure (now : ℤ) (boardId b : String) : (db.ensure now boardId).board b
    = if boardId = b then
        some ((db.board b).getD { id := b, createdAt := now, lastActivity := now })
      else db.board b := by
  refine (Table.get?_insertIgnore _ _ _).trans ?_
  by_cases h : boardId = b
  · subst h
    rw [if_pos rfl, if_pos rfl]
    rfl
  · rw [if_neg h, if_neg h]
    rfl

theorem board_update (boardId b : String) (set : BoardRecord → BoardRecord) :
    (db.update boardId set).board b
      = if boardId = b then (db.board b).map fun r ↦ { set r with id := b } else db.board b := by
  unfold update
  split
  · next hnone =>
    split_ifs with h
    · subst h
      rw [hnone, Option.map_none]
    · rfl
  · next r hr =>
    refine (Table.get?_put _ _ _).trans ?_
    by_cases h : boardId = b
    · subst h
      rw [if_pos rfl, if_pos rfl, hr, Option.map_some]
    · rw [if_neg h, if_neg h]
      rfl

@[simp] theorem strokes_update (boardId : String) (set : BoardRecord → BoardRecord) :
    (db.update boardId set).strokes = db.strokes := by
  unfold update
  split <;> rfl

theorem mem_references {r : StrokeRecord} (hr : r ∈ db.strokes) : r.boardId ∈ db.ids :=
  db.references r hr

theorem query_buildInsert_of_mem (hboard : boardId ∈ db.ids) (hne : batch ≠ []) :
    ∃ h, db.query (buildInsert boardId batch)
      = some ⟨db.boards, db.strokes.insertEach boardId batch, h⟩ := by
  have hrefers : ∀ r ∈ (db.strokes.insertEach boardId batch).rows, r.boardId ∈ db.ids := by
    intro r hr
    rw [Strokes.insertEach_eq] at hr
    rcases Table.mem_or_mem_of_mem_insertAll hr with hr | hr
    · exact mem_references hr
    · obtain ⟨k, -, rfl⟩ := List.mem_map.mp hr
      exact hboard
  refine ⟨hrefers, ?_⟩
  rw [query, Synapse.query_buildInsert boardId hne, ← Strokes.insertEach_eq]
  exact dif_pos hrefers

theorem query_buildInsert_of_not_mem (hboard : boardId ∉ db.ids) (hne : batch ≠ []) :
    db.query (buildInsert boardId batch) = none := by
  rw [query, Synapse.query_buildInsert boardId hne]
  refine dif_neg fun hrefers ↦ hboard ?_
  obtain ⟨k, hk⟩ := List.exists_mem_of_ne_nil batch hne
  -- a row with the key of the stroke is there afterwards, whoever has inserted it
  obtain ⟨r, hr, hkey⟩ := Table.exists_mem_insertAll_key_eq (t := db.strokes)
    (List.mem_map_of_mem (f := StrokeRecord.ofStroke boardId) hk)
  have hid : r.boardId = boardId := congrArg Prod.fst hkey
  exact hid ▸ hrefers r hr

theorem runAll_groups_of_mem (hboard : boardId ∈ db.ids) {groups : List (List PersistedStroke)}
    (hne : ∀ group ∈ groups, group ≠ []) :
    ∃ h, Session.runAll db (groups.map fun group db ↦ query db (buildInsert boardId group))
      = some ⟨db.boards, db.strokes.insertEach boardId groups.flatten, h⟩ := by
  induction groups generalizing db with
  | nil => exact ⟨db.references, rfl⟩
  | cons group groups ih =>
    obtain ⟨h, hgroup⟩ := query_buildInsert_of_mem hboard (hne group List.mem_cons_self)
    have hinserted :
        boardId ∈ ids ⟨db.boards, db.strokes.insertEach boardId group, h⟩ := hboard
    obtain ⟨h', hrest⟩ := ih hinserted fun g hg ↦ hne g (List.mem_cons_of_mem _ hg)
    have heach : db.strokes.insertEach boardId (group :: groups).flatten
        = (db.strokes.insertEach boardId group).insertEach boardId groups.flatten := by
      rw [List.flatten_cons, Strokes.insertEach, List.foldl_append]
      rfl
    refine ⟨heach ▸ h', ?_⟩
    rw [List.map_cons, Session.runAll_cons, hgroup, Option.bind_some, hrest]
    simp only [heach]

/-- A batch lands as if its strokes were inserted one by one. -/
theorem insertBatch_of_mem (hboard : boardId ∈ db.ids) (batch : List PersistedStroke) :
    ∃ h, db.insertBatch boardId batch
      = some ⟨db.boards, db.strokes.insertEach boardId batch, h⟩ := by
  have hflatten : (chunk batch maxInsertRows).flatten = batch := flatten_chunk batch (by decide)
  have hne : ∀ group ∈ chunk batch maxInsertRows, group ≠ [] := fun group hgroup ↦
    ne_nil_of_mem_chunk (by decide) hgroup
  have hgroups := runAll_groups_of_mem hboard hne
  rwa [hflatten] at hgroups

/-- The foreign key: a batch for a board without a row is in error, and lands nothing. -/
theorem insertBatch_of_not_mem (hboard : boardId ∉ db.ids) (hne : batch ≠ []) :
    db.insertBatch boardId batch = none := by
  have hflatten : (chunk batch maxInsertRows).flatten = batch := flatten_chunk batch (by decide)
  unfold insertBatch
  cases hchunk : chunk batch maxInsertRows with
  | nil =>
    rw [hchunk] at hflatten
    exact absurd hflatten.symm hne
  | cons group groups =>
    have hmem : group ∈ chunk batch maxInsertRows := hchunk ▸ List.mem_cons_self
    have hgroup : group ≠ [] := ne_nil_of_mem_chunk (by decide) hmem
    rw [List.map_cons, Session.runAll_cons, query_buildInsert_of_not_mem hboard hgroup,
      Option.bind_none]

end Database

end Synapse
