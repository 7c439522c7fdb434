import Synapse.Floating.Format
import Synapse.Sql.Insert
import Synapse.Sql.Session
import Synapse.Store.Repository
import Synapse.Wire.Schemas

/-!
# The table of strokes

`strokeRepository.ts` with the rows of all boards, and with the texts and the values it sends.
`buildInsert` makes one text for many rows, numbering the parameters from the length of a growing
array; what the text does is what PostgreSQL reads in it (`Strokes.query`).

Of PostgreSQL there is the meaning of the cast, the quotient and the function in the text. `jsonb`
keeps a JSON value as it is, a timestamp is a number of microseconds, and the driver hands over
`bigint` columns as decimal strings. Everything else about values is exact.
-/

namespace Synapse

open Keyed

/-! ## Rows -/

/-- A row of `strokes`. -/
structure StrokeRecord where
  boardId : String
  seq : ℕ
  id : String
  userId : String
  payload : Json
  /-- Microseconds since the epoch. -/
  ts : ℤ
  deriving DecidableEq

namespace StrokeRecord

/-- `strokes_pkey`. -/
def key (r : StrokeRecord) : String × ℕ := (r.boardId, r.seq)

/-- The row of a stroke. -/
def ofStroke (boardId : String) (stroke : PersistedStroke) : StrokeRecord where
  boardId := boardId
  seq := stroke.seq
  id := stroke.id
  userId := stroke.userId
  payload := stroke.toJson
  ts := stroke.ts * 1000

end StrokeRecord

/-- The table `strokes`. -/
abbrev Strokes := Table StrokeRecord.key

/-! ## Values -/

/-- A value of a statement. -/
inductive SqlValue
  | text (s : String)
  | number (q : ℚ)
  /-- The JSON text of a value. -/
  | json (j : Json)
  | jsonb (j : Json)
  /-- Microseconds since the epoch. -/
  | timestamp (us : ℤ)
  deriving DecidableEq

/-- The number that a decimal numeral stands for. -/
def decimal (chars : List Char) : Option ℚ :=
  match chars.splitOn '.' with
  | [whole, fraction] =>
    if (whole ++ fraction).all Char.isDigit then
      some (Nat.ofDigitChars 10 (whole ++ fraction) 0 / 10 ^ fraction.length)
    else none
  | _ => none

/-- What PostgreSQL does to values. -/
def postgres : Sql.Dialect SqlValue where
  cast
    | type, .json j => if type = "jsonb".toList then some (.jsonb j) else none
    | _, _ => none
  quotient
    | numeral, .number q =>
      (decimal numeral).bind fun d ↦ if d = 0 then none else some (.number (q / d))
    | _, _ => none
  call
    | f, .number seconds =>
      if f = "to_timestamp".toList then
        some (.timestamp (Floating.roundHalfEven (seconds * 10 ^ 6)))
      else none
    | _, _ => none

theorem postgres_cast (type : List Char) (j : Json) : postgres.cast type (.json j)
    = if type = "jsonb".toList then some (.jsonb j) else none := rfl

theorem postgres_quotient (numeral : List Char) (q : ℚ) : postgres.quotient numeral (.number q)
    = (decimal numeral).bind fun d ↦ if d = 0 then none else some (.number (q / d)) := rfl

theorem postgres_call (f : List Char) (seconds : ℚ) : postgres.call f (.number seconds)
    = if f = "to_timestamp".toList then
        some (.timestamp (Floating.roundHalfEven (seconds * 10 ^ 6)))
      else none := rfl

/-- The row that has these columns; `none` where a column is missing or of another type. -/
def StrokeRecord.ofColumns (columns : List (List Char × SqlValue)) : Option StrokeRecord :=
  match columns.lookup "board_id".toList, columns.lookup "seq".toList, columns.lookup "id".toList,
    columns.lookup "user_id".toList, columns.lookup "payload".toList,
    columns.lookup "ts".toList with
  | some (.text boardId), some (.number seq), some (.text id), some (.text userId),
    some (.jsonb payload), some (.timestamp ts) =>
    if seq.den = 1 ∧ 0 ≤ seq then some { boardId, seq := seq.num.toNat, id, userId, payload, ts }
    else none
  | _, _, _, _, _, _ => none

namespace Strokes

/-- A statement that is sent with its values; `none` when it is in error. -/
def query (q : String × List SqlValue) (t : Strokes) : Option Strokes := do
  let stmt ← Sql.read q.1
  let rows ← stmt.bind postgres q.2
  let records ← rows.mapM StrokeRecord.ofColumns
  if stmt.table = "strokes".toList ∧ stmt.conflict = ["board_id".toList, "seq".toList] then
    some (t.insertAll records)
  else none

end Strokes

/-! ## `strokeRepository.ts` -/

/-- The parameters of the row that is added when there are `base` values. -/
def rowText (base : ℕ) : String :=
  "($1, $" ++ toString (base + 1) ++ ", $" ++ toString (base + 2) ++ ", $" ++ toString (base + 3) ++
    ", $" ++ toString (base + 4) ++ "::jsonb, to_timestamp($" ++ toString (base + 5) ++
    " / 1000.0))"

/-- The values of one row. -/
def rowValues (stroke : PersistedStroke) : List SqlValue :=
  [.number stroke.seq, .text stroke.id, .text stroke.userId, .json stroke.toJson,
    .number stroke.ts]

/-- Builds a parameterized multi-row INSERT for one chunk of strokes. -/
def buildInsert (boardId : String) (strokes : List PersistedStroke) : String × List SqlValue :=
  let (values, rows) := strokes.foldl
    (fun (values, rows) stroke ↦
      (values ++ rowValues stroke, rows ++ [rowText values.length]))
    ([.text boardId], [])
  ("INSERT INTO strokes (board_id, seq, id, user_id, payload, ts) VALUES " ++
    String.intercalate ", " rows ++ " ON CONFLICT (board_id, seq) DO NOTHING", values)

/-- What `loadSince` is sent for a row. -/
structure StrokeRow where
  id : String
  seq : String
  userId : String
  payload : Json
  tsMs : String

/-- The columns that `loadSince` selects; `bigint` columns arrive as strings. -/
def StrokeRecord.selected (r : StrokeRecord) : StrokeRow where
  id := r.id
  seq := toString r.seq
  userId := r.userId
  payload := r.payload
  tsMs := toString (Floating.roundHalfEven (r.ts / 10 ^ 6 * 1000))

/-- `Number`, of the decimal string of a natural number. -/
def toNumber (s : String) : Option ℕ :=
  if s ≠ "" ∧ s.toList.all Char.isDigit then some (Nat.ofDigitChars 10 s.toList 0) else none

/-- The segment that a stored payload is. -/
def StrokeSegment.ofJson (payload : Json) : Option StrokeSegment :=
  match Json.prop (some payload) "x0", Json.prop (some payload) "y0",
    Json.prop (some payload) "x1", Json.prop (some payload) "y1",
    Json.prop (some payload) "color", Json.prop (some payload) "width" with
  | some (.num (.finite x0)), some (.num (.finite y0)), some (.num (.finite x1)),
    some (.num (.finite y1)), some (.str color), some (.num (.finite width)) =>
    some { x0, y0, x1, y1, color, width }
  | _, _, _, _, _, _ => none

/-- Reconstructs a stroke from a queried row; `none` when it is not a stroke. -/
def rowToStroke (row : StrokeRow) : Option PersistedStroke := do
  let segment ← StrokeSegment.ofJson row.payload
  let seq ← toNumber row.seq
  let ts ← toNumber row.tsMs
  some { segment with id := row.id, seq, userId := row.userId, ts }

namespace Strokes

/-- `WHERE board_id = $1 AND seq > $2 ORDER BY seq ASC`. -/
def selectSince (t : Strokes) (boardId : String) (sinceSeq : ℕ) : List StrokeRecord :=
  sortByKey StrokeRecord.seq
    (t.rows.filter fun r ↦ decide (r.boardId = boardId ∧ sinceSeq < r.seq))

/-- The strokes of a board with `seq > sinceSeq`, by ascending seq; `none` when a row is none. -/
def loadSince (t : Strokes) (boardId : String) (sinceSeq : ℕ) : Option (List PersistedStroke) :=
  (t.selectSince boardId sinceSeq).mapM fun r ↦ rowToStroke r.selected

end Strokes

/-- Which of the requests of a call fail. -/
structure Faults where
  connect : Bool := false
  /-- The `i`-th request. -/
  request : ℕ → Bool := fun _ ↦ false
  rollback : Bool := false

/-- Appends a batch of strokes of a board over a connection, and whether that resolves. -/
def insertBatch (s : Sql.Session Strokes) (boardId : String) (strokes : List PersistedStroke)
    (faults : Faults) : Sql.Session Strokes × Bool :=
  if strokes = [] then (s, true)
  else
    match chunk strokes maxInsertRows with
    | [group] => s.send (faults.request 0) (.run (Strokes.query (buildInsert boardId group)))
    | groups =>
      if faults.connect then (s, false)
      else
        s.transaction faults.request faults.rollback
          (groups.map fun group ↦ Strokes.query (buildInsert boardId group))

end Synapse
