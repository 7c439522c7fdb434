import Synapse.Store.StrokeTable

/-!
# Strokes there and back

What `buildInsert` sends means the rows of its strokes, one for one, and `loadSince` gives them
back. The parameters of a row are numbered from the number of values before it, and the rows come
every five values, so the numbers of all rows run through the values without a gap or a repetition.
-/

namespace Synapse

open Keyed Sql

/-! ## The loop of `buildInsert` -/

/-- The text before the rows. -/
def insertHead : String := "INSERT INTO strokes (board_id, seq, id, user_id, payload, ts) VALUES "

/-- The text after the rows. -/
def insertFoot : String := " ON CONFLICT (board_id, seq) DO NOTHING"

/-- The text of an INSERT of these rows. -/
def insertText (rows : List String) : String :=
  insertHead ++ String.intercalate ", " rows ++ insertFoot

theorem foldl_buildInsert (strokes : List PersistedStroke) (values : List SqlValue)
    (rows : List String) :
    strokes.foldl (fun (acc : List SqlValue × List String) stroke ↦
        (acc.1 ++ rowValues stroke, acc.2 ++ [rowText acc.1.length])) (values, rows)
      = (values ++ strokes.flatMap rowValues,
        rows ++ (List.range' values.length strokes.length 5).map rowText) := by
  induction strokes generalizing values rows with
  | nil => simp
  | cons stroke strokes ih =>
    rw [List.foldl_cons, ih, List.length_cons, List.range'_succ, List.flatMap_cons,
      List.length_append]
    simp [rowValues]

theorem buildInsert_eq (boardId : String) (strokes : List PersistedStroke) :
    buildInsert boardId strokes
      = (insertText ((List.range' 1 strokes.length 5).map rowText),
        .text boardId :: strokes.flatMap rowValues) := by
  have hfold := foldl_buildInsert strokes [.text boardId] []
  rw [List.nil_append] at hfold
  unfold buildInsert
  rw [hfold]
  rfl

theorem length_values (boardId : String) (strokes : List PersistedStroke) :
    (buildInsert boardId strokes).2.length = 5 * strokes.length + 1 := by
  rw [buildInsert_eq]
  simp only [List.length_cons, List.length_flatMap]
  have hrow : strokes.map (fun k ↦ (rowValues k).length) = strokes.map fun _ ↦ 5 := rfl
  rw [hrow, List.map_const', List.sum_replicate, nsmul_eq_mul, Nat.cast_id, Nat.mul_comm]

/-! ## Reading the text -/

/-- The expressions of a row. -/
def rowExprs (base : ℕ) : List Expr :=
  [.param 1, .param (base + 1), .param (base + 2), .param (base + 3),
    .cast (.param (base + 4)) "jsonb".toList,
    .call "to_timestamp".toList (.quotient (.param (base + 5)) "1000.0".toList)]

theorem scan_rowText (base : ℕ) (ts : List Token) :
    Scan.run ⟨ts, none⟩ (rowText base).toList
      = ⟨(paren Expr.tokens (rowExprs base)).reverse ++ ts, none⟩ := by
  have hnext : ∀ ts n, Scan.run ⟨ts, some (.param n)⟩ ", $".toList
      = ⟨.mark ',' :: .param n :: ts, some (.param 0)⟩ := fun _ _ ↦ rfl
  have hopen : ∀ ts, Scan.run ⟨ts, none⟩ "($1, $".toList
      = ⟨.mark ',' :: .param 1 :: .mark '(' :: ts, some (.param 0)⟩ := fun _ ↦ rfl
  have hcast : ∀ ts n, Scan.run ⟨ts, some (.param n)⟩ "::jsonb, to_timestamp($".toList
      = ⟨.mark '(' :: .word "to_timestamp".toList :: .mark ',' :: .word "jsonb".toList ::
        .mark ':' :: .mark ':' :: .param n :: ts, some (.param 0)⟩ := fun _ _ ↦ rfl
  have hclose : ∀ ts n, Scan.run ⟨ts, some (.param n)⟩ " / 1000.0))".toList
      = ⟨.mark ')' :: .mark ')' :: .word "1000.0".toList :: .mark '/' :: .param n :: ts, none⟩ :=
    fun _ _ ↦ rfl
  delta rowText
  simp only [String.toList_append, Nat.toString_eq_repr, Nat.toList_repr, Scan.run_append]
  rw [hopen, Scan.run_toDigits, hnext, Scan.run_toDigits, hnext, Scan.run_toDigits, hnext,
    Scan.run_toDigits, hcast, Scan.run_toDigits, hclose]
  rfl

/-- The columns of the INSERT. -/
def insertColumns : List (List Char) :=
  ["board_id".toList, "seq".toList, "id".toList, "user_id".toList, "payload".toList, "ts".toList]

/-- The statement that is meant. -/
def insertStatement (bases : List ℕ) : Insert where
  table := "strokes".toList
  columns := insertColumns
  rows := bases.map rowExprs
  conflict := ["board_id".toList, "seq".toList]

/-- The tokens before the rows. -/
def headTokens : List Token :=
  .word "INSERT".toList :: .word "INTO".toList :: .word "strokes".toList ::
    (paren (fun c ↦ [.word c]) insertColumns ++ [.word "VALUES".toList])

/-- The tokens after the rows. -/
def footTokens : List Token :=
  .word "ON".toList :: .word "CONFLICT".toList ::
    (paren (fun c ↦ [.word c]) ["board_id".toList, "seq".toList] ++
      [.word "DO".toList, .word "NOTHING".toList])

set_option maxRecDepth 2000 in
theorem scan_head : Scan.run {} insertHead.toList = ⟨headTokens.reverse, none⟩ := rfl

theorem scan_foot (ts : List Token) :
    (Scan.run ⟨ts, none⟩ insertFoot.toList).close = ⟨footTokens.reverse ++ ts, none⟩ := rfl

theorem lex_insertText (bases : List ℕ) : lex (insertText (bases.map rowText))
    = headTokens ++ commaSep (fun base ↦ paren Expr.tokens (rowExprs base)) bases
      ++ footTokens := by
  rw [lex, insertText, String.toList_append, String.toList_append, Scan.run_append,
    Scan.run_append, scan_head, Scan.run_intercalate scan_rowText, scan_foot]
  simp only [List.reverse_append, List.reverse_reverse, List.append_assoc]

/-- Every expression of a row is read back. -/
theorem expr_rowExprs {base : ℕ} {e : Expr} (he : e ∈ rowExprs base) (c : Char)
    (hc : c = ',' ∨ c = ')') (ts : List Token) :
    expr (e.tokens ++ .mark c :: ts) = some (e, .mark c :: ts) := by
  simp only [rowExprs, List.mem_cons, List.not_mem_nil, or_false] at he
  rcases hc with rfl | rfl <;> rcases he with rfl | rfl | rfl | rfl | rfl | rfl <;> rfl

theorem tuple_rowExprs (base : ℕ) (ts : List Token) :
    tuple expr (paren Expr.tokens (rowExprs base) ++ ts) = some (rowExprs base, ts) :=
  tuple_paren (List.cons_ne_nil _ _) (fun e _ ↦ e.tokens_ne_nil)
    (fun _ he ↦ expr_rowExprs he ',' (Or.inl rfl)) (fun _ he ↦ expr_rowExprs he ')' (Or.inr rfl)) ts

theorem tuple_names {names : List (List Char)} (hne : names ≠ []) (ts : List Token) :
    tuple name (paren (fun c ↦ [.word c]) names ++ ts) = some (names, ts) :=
  tuple_paren hne (fun _ _ ↦ List.cons_ne_nil _ _) (fun _ _ _ ↦ rfl) (fun _ _ _ ↦ rfl) ts

/-- The text of an INSERT is read as the statement that is meant. -/
theorem read_insertText {bases : List ℕ} (hne : bases ≠ []) :
    read (insertText (bases.map rowText)) = some (insertStatement bases) := by
  have hrows : sepBy (tuple expr)
      (commaSep (fun base ↦ paren Expr.tokens (rowExprs base)) bases ++ footTokens).length
      (commaSep (fun base ↦ paren Expr.tokens (rowExprs base)) bases ++ footTokens)
      = some (bases.map rowExprs, footTokens) := by
    have hcomma : commaSep (fun base ↦ paren Expr.tokens (rowExprs base)) bases
        = commaSep (paren Expr.tokens) (bases.map rowExprs) := by
      rw [commaSep, commaSep, List.map_map]
      rfl
    have hrow : ∀ row ∈ bases.map rowExprs, ∀ ts,
        tuple expr (paren Expr.tokens row ++ ts) = some (row, ts) := by
      intro row hrow ts
      obtain ⟨base, -, rfl⟩ := List.mem_map.mp hrow
      exact tuple_rowExprs base ts
    rw [hcomma]
    refine sepBy_commaSep (by simpa using hne) (fun row hr ts ↦ hrow row hr _)
      (fun row hr ↦ hrow row hr _) (by simp [footTokens]) ?_
    rw [List.length_append]
    exact Nat.le_add_right_of_le (length_le_length_commaSep fun _ _ ↦ List.cons_ne_nil _ _)
  have hinsert : words ["INSERT", "INTO"] (lex (insertText (bases.map rowText)))
      = some (.word "strokes".toList :: (paren (fun c ↦ [.word c]) insertColumns ++
        .word "VALUES".toList ::
          (commaSep (fun base ↦ paren Expr.tokens (rowExprs base)) bases ++ footTokens))) := by
    rw [lex_insertText, List.append_assoc]
    rfl
  have hcolumns : ∀ ts, tuple name (paren (fun c ↦ [.word c]) insertColumns ++ ts)
      = some (insertColumns, ts) := tuple_names (List.cons_ne_nil _ _)
  have hconflict : ∀ ts, tuple name
      (paren (fun c ↦ [.word c]) ["board_id".toList, "seq".toList] ++ ts)
      = some (["board_id".toList, "seq".toList], ts) := tuple_names (List.cons_ne_nil _ _)
  exact read_eq_some hinsert rfl (hcolumns _) rfl hrows rfl (hconflict _) rfl

/-! ## Binding the rows -/

/-- The columns that the row of a stroke is to have. -/
def columnsOf (boardId : String) (stroke : PersistedStroke) : List (List Char × SqlValue) :=
  insertColumns.zip [.text boardId, .number stroke.seq, .text stroke.id, .text stroke.userId,
    .jsonb stroke.toJson, .timestamp (stroke.ts * 1000)]

theorem decimal_thousand : decimal "1000.0".toList = some 1000 := by decide +kernel

theorem timestamp_of_ms (ts : ℕ) :
    (postgres.quotient "1000.0".toList (.number ts)).bind (postgres.call "to_timestamp".toList)
      = some (.timestamp (ts * 1000)) := by
  have hquotient : postgres.quotient "1000.0".toList (.number ts)
      = some (.number ((ts : ℚ) / 1000)) := by
    rw [postgres_quotient, decimal_thousand, Option.bind_some, if_neg (by norm_num)]
  have hmicros : (ts : ℚ) / 1000 * 10 ^ 6 = ((ts * 1000 : ℤ) : ℚ) := by
    push_cast
    ring
  rw [hquotient, Option.bind_some, postgres_call, if_pos rfl, hmicros,
    Floating.roundHalfEven_intCast]

theorem bindRow_rowExprs {boardId : String} {stroke : PersistedStroke} {values : List SqlValue}
    {base : ℕ} (hboard : values[0]? = some (.text boardId))
    (hrow : ∀ i < 5, values[base + i]? = (rowValues stroke)[i]?) :
    bindRow postgres values insertColumns (rowExprs base) = some (columnsOf boardId stroke) := by
  have hpayload : Expr.eval postgres values (.cast (.param (base + 4)) "jsonb".toList)
      = some (.jsonb stroke.toJson) := by
    have hjson : values[base + 3]? = some (.json stroke.toJson) := hrow 3 (by decide)
    rw [Expr.eval, Expr.eval, hjson, Option.bind_some, postgres_cast, if_pos rfl]
  have hts : Expr.eval postgres values (.call "to_timestamp".toList
      (.quotient (.param (base + 5)) "1000.0".toList)) = some (.timestamp (stroke.ts * 1000)) := by
    have hms : values[base + 4]? = some (.number stroke.ts) := hrow 4 (by decide)
    rw [Expr.eval, Expr.eval, Expr.eval, hms]
    exact timestamp_of_ms stroke.ts
  have heval : (rowExprs base).mapM (Expr.eval postgres values)
      = some [.text boardId, .number stroke.seq, .text stroke.id, .text stroke.userId,
        .jsonb stroke.toJson, .timestamp (stroke.ts * 1000)] :=
    mapM_of_forall₂ <| .cons hboard <| .cons (hrow 0 (by decide)) <| .cons (hrow 1 (by decide)) <|
      .cons (hrow 2 (by decide)) <| .cons hpayload <| .cons hts .nil
  have hlength : (rowExprs base).length = insertColumns.length := rfl
  rw [bindRow, if_pos hlength, heval]
  rfl

theorem bind_rows {boardId : String} (strokes : List PersistedStroke) {before : List SqlValue}
    (hboard : before[0]? = some (.text boardId)) :
    ((List.range' before.length strokes.length 5).map rowExprs).mapM
        (bindRow postgres (before ++ strokes.flatMap rowValues) insertColumns)
      = some (strokes.map (columnsOf boardId)) := by
  induction strokes generalizing before with
  | nil => rfl
  | cons stroke strokes ih =>
    have hlt : 0 < before.length := by
      rw [List.length_pos_iff]
      rintro rfl
      cases hboard
    have hboard' : (before ++ rowValues stroke)[0]? = some (.text boardId) := by
      rwa [List.getElem?_append_left hlt]
    have hnext := ih hboard'
    rw [List.length_append, List.append_assoc] at hnext
    have hrow : bindRow postgres (before ++ (rowValues stroke ++ strokes.flatMap rowValues))
        insertColumns (rowExprs before.length) = some (columnsOf boardId stroke) := by
      refine bindRow_rowExprs (by rwa [List.getElem?_append_left hlt]) fun i hi ↦ ?_
      rw [List.getElem?_append_right (Nat.le_add_right _ _), Nat.add_sub_cancel_left,
        List.getElem?_append_left hi]
    rw [List.flatMap_cons, List.length_cons, List.range'_succ, List.map_cons, List.mapM_cons, hrow]
    exact congrArg (Option.bind · _) hnext

/-- What `buildInsert` sends is bound to its strokes. -/
theorem bind_buildInsert (boardId : String) (strokes : List PersistedStroke) :
    (insertStatement (List.range' 1 strokes.length 5)).bind postgres
        (buildInsert boardId strokes).2 = some (strokes.map (columnsOf boardId)) := by
  have hboard : [SqlValue.text boardId][0]? = some (.text boardId) := rfl
  rw [buildInsert_eq]
  exact bind_rows strokes hboard

theorem ofColumns_columnsOf (boardId : String) (stroke : PersistedStroke) :
    StrokeRecord.ofColumns (columnsOf boardId stroke)
      = some (StrokeRecord.ofStroke boardId stroke) := by
  change (if (stroke.seq : ℚ).den = 1 ∧ 0 ≤ (stroke.seq : ℚ) then some _ else none) = _
  rw [if_pos ⟨Rat.den_natCast _, Nat.cast_nonneg _⟩]
  rfl

/-- **What the statement of `buildInsert` does**: it inserts the rows of its strokes. -/
theorem query_buildInsert (boardId : String) {strokes : List PersistedStroke} (hne : strokes ≠ [])
    (t : Strokes) : Strokes.query (buildInsert boardId strokes) t
      = some (t.insertAll (strokes.map (StrokeRecord.ofStroke boardId))) := by
  have hbases : List.range' 1 strokes.length 5 ≠ [] := by simpa using hne
  have hread : Sql.read (buildInsert boardId strokes).1
      = some (insertStatement (List.range' 1 strokes.length 5)) := by
    rw [buildInsert_eq]
    exact read_insertText hbases
  have hrecords : (strokes.map (columnsOf boardId)).mapM StrokeRecord.ofColumns
      = some (strokes.map (StrokeRecord.ofStroke boardId)) := by
    refine mapM_of_forall₂ ?_
    rw [List.forall₂_map_left_iff, List.forall₂_map_right_iff, List.forall₂_same]
    exact fun stroke _ ↦ ofColumns_columnsOf boardId stroke
  simp only [Strokes.query, hread, bind_buildInsert, hrecords, Option.bind_eq_bind,
    Option.bind_some]
  exact if_pos ⟨rfl, rfl⟩

/-! ## The numbers of the parameters -/

theorem placeholders_insertText (bases : List ℕ) :
    placeholders (insertText (bases.map rowText))
      = bases.flatMap fun base ↦ 1 :: List.range' (base + 1) 5 := by
  have hrows : (commaSep (fun base ↦ paren Expr.tokens (rowExprs base)) bases).filterMap
      Token.param? = bases.flatMap fun base ↦ 1 :: List.range' (base + 1) 5 := by
    induction bases with
    | nil => rfl
    | cons base bases ih =>
      cases bases with
      | nil => simp [commaSep]; rfl
      | cons base' bases =>
        rw [commaSep_cons_cons, List.filterMap_append, List.filterMap_cons, ih, List.flatMap_cons]
        rfl
  rw [placeholders, lex_insertText, List.filterMap_append, List.filterMap_append, hrows]
  exact List.append_nil _

theorem flatMap_range' (start n : ℕ) :
    (List.range' start n 5).flatMap (fun base ↦ List.range' (base + 1) 5)
      = List.range' (start + 1) (5 * n) := by
  induction n generalizing start with
  | zero => rfl
  | succ n ih =>
    rw [List.range'_succ, List.flatMap_cons, ih, Nat.mul_succ, Nat.add_comm (5 * n),
      ← List.range'_append]

/-- Every number past the first is used once, and none past the values is. -/
theorem count_placeholders (boardId : String) (strokes : List PersistedStroke) {n : ℕ}
    (hn : 2 ≤ n) : (placeholders (buildInsert boardId strokes).1).count n
      = if n ≤ (buildInsert boardId strokes).2.length then 1 else 0 := by
  have hcount : ∀ bases : List ℕ, (bases.flatMap fun base ↦ 1 :: List.range' (base + 1) 5).count n
      = (bases.flatMap fun base ↦ List.range' (base + 1) 5).count n := by
    intro bases
    induction bases with
    | nil => rfl
    | cons base bases ih =>
      rw [List.flatMap_cons, List.flatMap_cons, List.count_append, List.count_append, ih,
        List.count_cons_of_ne (by omega)]
  rw [length_values, buildInsert_eq, placeholders_insertText, hcount, flatMap_range',
    List.Nodup.count List.nodup_range']
  refine if_congr ?_ rfl rfl
  rw [List.mem_range'_1]
  omega

theorem placeholders_mem (boardId : String) {strokes : List PersistedStroke} {n : ℕ}
    (hn : n ∈ placeholders (buildInsert boardId strokes).1) :
    1 ≤ n ∧ n ≤ (buildInsert boardId strokes).2.length := by
  rw [buildInsert_eq, placeholders_insertText] at hn
  obtain ⟨base, hbase, hn⟩ := List.mem_flatMap.mp hn
  obtain ⟨i, hi, rfl⟩ := List.mem_range'.mp hbase
  rw [length_values]
  rw [List.mem_cons, List.mem_range'_1] at hn
  omega

/-! ## Reading the rows -/

theorem toNumber_toString (n : ℕ) : toNumber (toString n) = some n := by
  have hne : toString n ≠ "" := by
    intro h
    have hlist := congrArg String.toList h
    rw [Nat.toString_eq_repr, Nat.toList_repr] at hlist
    exact Nat.toDigits_ne_nil hlist
  have hdigits : (toString n).toList.all Char.isDigit = true := by
    rw [Nat.toString_eq_repr, Nat.toList_repr, List.all_eq_true]
    exact fun c hc ↦ Nat.isDigit_of_mem_toDigits (by decide) (by decide) hc
  rw [toNumber, if_pos ⟨hne, hdigits⟩, Nat.toString_eq_repr, Nat.toList_repr,
    Nat.ofDigitChars_ten_toDigits]

theorem ofJson_toJson (segment : StrokeSegment) :
    StrokeSegment.ofJson segment.toJson = some segment := rfl

theorem rowToStroke_selected (boardId : String) (stroke : PersistedStroke) :
    rowToStroke (StrokeRecord.ofStroke boardId stroke).selected = some stroke := by
  have hms : ((StrokeRecord.ofStroke boardId stroke).ts : ℚ) / 10 ^ 6 * 1000
      = ((stroke.ts : ℤ) : ℚ) := by
    simp only [StrokeRecord.ofStroke]
    push_cast
    ring
  have hts : (StrokeRecord.ofStroke boardId stroke).selected.tsMs = toString stroke.ts := by
    rw [StrokeRecord.selected, hms, Floating.roundHalfEven_intCast]
    rfl
  have hseq : (StrokeRecord.ofStroke boardId stroke).selected.seq = toString stroke.seq := rfl
  have hpayload : StrokeSegment.ofJson (StrokeRecord.ofStroke boardId stroke).selected.payload
      = some stroke.toStrokeSegment := ofJson_toJson _
  rw [rowToStroke, hts, hseq, hpayload, toNumber_toString, toNumber_toString]
  rfl

theorem Strokes.loadSince_of_rows {t : Strokes} {boardId : String} {strokes : List PersistedStroke}
    (h : t.rows.filter (fun r ↦ decide (r.boardId = boardId))
      = strokes.map (StrokeRecord.ofStroke boardId)) (n : ℕ) :
    t.loadSince boardId n
      = some (sortByKey PersistedStroke.seq (strokes.filter fun k ↦ decide (n < k.seq))) := by
  have hrows : t.rows.filter (fun r ↦ decide (r.boardId = boardId ∧ n < r.seq))
      = (strokes.filter fun k ↦ decide (n < k.seq)).map (StrokeRecord.ofStroke boardId) := by
    have hsplit : t.rows.filter (fun r ↦ decide (r.boardId = boardId ∧ n < r.seq))
        = (t.rows.filter fun r ↦ decide (r.boardId = boardId)).filter
          fun r ↦ decide (n < r.seq) := by
      rw [List.filter_filter]
      refine List.filter_congr fun r _ ↦ ?_
      rw [Bool.decide_and, Bool.and_comm]
    rw [hsplit, h, List.filter_map]
    rfl
  have hsort : sortByKey StrokeRecord.seq ((strokes.filter fun k ↦ decide (n < k.seq)).map
      (StrokeRecord.ofStroke boardId))
      = (sortByKey PersistedStroke.seq (strokes.filter fun k ↦ decide (n < k.seq))).map
        (StrokeRecord.ofStroke boardId) :=
    sortByKey_map _ _
  rw [loadSince, selectSince, hrows, hsort]
  refine mapM_of_forall₂ ?_
  rw [List.forall₂_map_left_iff, List.forall₂_same]
  exact fun k _ ↦ rowToStroke_selected boardId k

theorem rows_insertAll_of_nodup {t : Strokes} {rows : List StrokeRecord}
    (hnodup : (rows.map StrokeRecord.key).Nodup)
    (hfree : ∀ r ∈ rows, ∀ r' ∈ t, r'.key ≠ r.key) : (t.insertAll rows).rows = t.rows ++ rows := by
  induction rows generalizing t with
  | nil => exact (List.append_nil _).symm
  | cons r rows ih =>
    have hnew : r.key ∉ t.rows.map StrokeRecord.key := by
      intro hmem
      obtain ⟨r', hr', hkey⟩ := List.mem_map.mp hmem
      exact hfree r List.mem_cons_self r' hr' hkey
    rw [List.map_cons, List.nodup_cons] at hnodup
    rw [Table.insertAll_cons, ih hnodup.2, Table.rows_insertIgnore_of_not_mem hnew,
      List.append_assoc, List.singleton_append]
    intro r₁ hr₁ r' hr'
    rcases Table.mem_insertIgnore.mp hr' with hold | ⟨rfl, -⟩
    · exact hfree r₁ (List.mem_cons_of_mem _ hr₁) r' hold
    · exact fun hkey ↦ hnodup.1 (hkey ▸ List.mem_map_of_mem hr₁)

theorem Strokes.loadSince_insertAll (boardId : String) {strokes : List PersistedStroke}
    (hseq : (strokes.map PersistedStroke.seq).Nodup) {t : Strokes}
    (ht : ∀ r ∈ t, r.boardId ≠ boardId) (n : ℕ) :
    loadSince (t.insertAll (strokes.map (StrokeRecord.ofStroke boardId))) boardId n
      = some (sortByKey PersistedStroke.seq (strokes.filter fun k ↦ decide (n < k.seq))) := by
  have hkeys : ((strokes.map (StrokeRecord.ofStroke boardId)).map StrokeRecord.key).Nodup := by
    have hpair : StrokeRecord.key ∘ StrokeRecord.ofStroke boardId
        = Prod.mk boardId ∘ PersistedStroke.seq := rfl
    rw [List.map_map, hpair, ← List.map_map]
    exact hseq.map (Prod.mk_right_injective boardId)
  have hfree : ∀ r ∈ strokes.map (StrokeRecord.ofStroke boardId), ∀ r' ∈ t, r'.key ≠ r.key := by
    intro r hr r' hr' hkey
    obtain ⟨k, -, rfl⟩ := List.mem_map.mp hr
    exact ht r' hr' (congrArg Prod.fst hkey)
  refine loadSince_of_rows ?_ n
  rw [rows_insertAll_of_nodup hkeys hfree, List.filter_append,
    List.filter_eq_nil_iff.mpr (by simpa using ht), List.nil_append, List.filter_eq_self]
  intro r hr
  obtain ⟨k, -, rfl⟩ := List.mem_map.mp hr
  exact decide_eq_true rfl

/-- **Strokes there and back.** The text and the values of an INSERT are read as the rows of its
strokes, one for one; its placeholders are within the values, those after the first are used once
each, and a chunk has no more than PostgreSQL takes; and what is loaded from the rows is the
strokes, ascending. -/
theorem stored_strokes_round_trip (boardId : String) {strokes : List PersistedStroke}
    (hne : strokes ≠ []) (hseq : (strokes.map PersistedStroke.seq).Nodup) :
    (∃ stmt, Sql.read (buildInsert boardId strokes).1 = some stmt ∧
      stmt.bind postgres (buildInsert boardId strokes).2
        = some (strokes.map (columnsOf boardId))) ∧
    (∀ n ∈ placeholders (buildInsert boardId strokes).1,
      1 ≤ n ∧ n ≤ (buildInsert boardId strokes).2.length) ∧
    (∀ n, 2 ≤ n → n ≤ (buildInsert boardId strokes).2.length →
      (placeholders (buildInsert boardId strokes).1).count n = 1) ∧
    (∀ group ∈ chunk strokes maxInsertRows, (buildInsert boardId group).2.length ≤ 65535) ∧
    ∀ t : Strokes, (∀ r ∈ t, r.boardId ≠ boardId) →
      ∃ t', Strokes.query (buildInsert boardId strokes) t = some t' ∧
        ∀ n, ∃ loaded, t'.loadSince boardId n = some loaded ∧
          Ascending PersistedStroke.seq loaded ∧ ∀ k, k ∈ loaded ↔ k ∈ strokes ∧ n < k.seq := by
  refine ⟨⟨_, ?_, bind_buildInsert boardId strokes⟩, fun n ↦ placeholders_mem boardId,
    fun n hn hle ↦ ?_, fun group hgroup ↦ ?_, fun t ht ↦
      ⟨_, query_buildInsert boardId hne t, fun n ↦
        ⟨_, Strokes.loadSince_insertAll boardId hseq ht n, ?_, fun k ↦ ?_⟩⟩⟩
  · rw [buildInsert_eq]
    exact read_insertText (by simpa using hne)
  · rw [count_placeholders boardId strokes hn, if_pos hle]
  · obtain ⟨i, -, rfl⟩ := List.mem_map.mp hgroup
    have hlength : ((strokes.drop (i * maxInsertRows)).take maxInsertRows).length ≤ 1000 :=
      List.length_take_le _ _
    rw [length_values]
    omega
  · exact ascending_sortByKey (hseq.sublist (List.filter_sublist.map _))
  · rw [mem_sortByKey, List.mem_filter, decide_eq_true_iff]

/-- Two strokes, the later first. -/
private def twoStrokes : List PersistedStroke :=
  [⟨default, "b", 2, "ada", 1700000000123⟩, ⟨default, "a", 1, "ada", 1700000000122⟩]

theorem stored_strokes_round_trip_two : ∃ t',
    Strokes.query (buildInsert "board-1" twoStrokes) (Table.empty _) = some t' ∧
      ∀ n, ∃ loaded, t'.loadSince "board-1" n = some loaded ∧
        Ascending PersistedStroke.seq loaded ∧
        ∀ k, k ∈ loaded ↔ k ∈ twoStrokes ∧ n < k.seq := by
  have hne : twoStrokes ≠ [] := List.cons_ne_nil _ _
  obtain ⟨-, -, -, -, hload⟩ := stored_strokes_round_trip "board-1" hne (by decide)
  exact hload _ fun r hr ↦ absurd hr List.not_mem_nil

end Synapse
