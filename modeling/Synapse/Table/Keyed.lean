import Mathlib.Data.List.Sort
import Mathlib.Data.List.Nodup

/-!
# Keyed tables

A finite table whose rows are told apart by a key. Two writes add rows: the insertion that leaves an
existing row with the same key alone (`ON CONFLICT (key) DO NOTHING`), and `put`, which overwrites
it. Selections return rows in ascending key order.

The distinctness of the keys is a field of the table, so a table that breaks it cannot be built and
no operation carries it as a side condition.

## What an insertion can lose

`insertAll` keeps the first row of each key, so a row may be dropped silently. Nothing is dropped
when the keys determine the rows among everything in play, which is `mem_insertAll_of_determined`;
this is the form in which the callers meet the operation.
-/

namespace Keyed

variable {α κ : Type*} (key : α → κ)

/-- Strictly ascending keys. -/
def Ascending [LT κ] (l : List α) : Prop := l.Pairwise fun a b ↦ key a < key b

/-- The stable sort by key. -/
def sortByKey [LinearOrder κ] (l : List α) : List α := l.insertionSort fun a b ↦ key a ≤ key b

variable {key}

section Sorting

variable [LinearOrder κ] {l : List α} {x y : α}

theorem sortByKey_perm (l : List α) : (sortByKey key l).Perm l := l.perm_insertionSort _

@[simp] theorem mem_sortByKey : x ∈ sortByKey key l ↔ x ∈ l := (sortByKey_perm l).mem_iff

@[simp] theorem length_sortByKey (l : List α) : (sortByKey key l).length = l.length :=
  (sortByKey_perm l).length_eq

theorem sortByKey_map {β : Type*} (f : β → α) (l : List β) :
    sortByKey key (l.map f) = (sortByKey (key ∘ f) l).map f :=
  (List.map_insertionSort (fun a b ↦ key (f a) ≤ key (f b)) (fun a b ↦ key a ≤ key b) f l
    fun _ _ _ _ ↦ Iff.rfl).symm

theorem pairwise_le_sortByKey (l : List α) :
    (sortByKey key l).Pairwise fun a b ↦ key a ≤ key b := by
  have : Std.Total fun a b : α ↦ key a ≤ key b := ⟨fun a b ↦ le_total (key a) (key b)⟩
  have : IsTrans α fun a b ↦ key a ≤ key b := ⟨fun _ _ _ ↦ le_trans⟩
  exact l.pairwise_insertionSort _

theorem ascending_sortByKey (h : (l.map key).Nodup) : Ascending key (sortByKey key l) := by
  have hnd : ((sortByKey key l).map key).Nodup := ((sortByKey_perm l).map key).nodup_iff.mpr h
  rw [List.Nodup, List.pairwise_map] at hnd
  exact (pairwise_le_sortByKey l).imp₂ (fun _ _ hle hne ↦ lt_of_le_of_ne hle hne) hnd

theorem Ascending.nodup_keys (h : Ascending key l) : (l.map key).Nodup := by
  rw [List.Nodup, List.pairwise_map]
  exact h.imp fun hlt ↦ ne_of_lt hlt

theorem Ascending.sublist {m : List α} (h : Ascending key l) (hm : m.Sublist l) :
    Ascending key m :=
  List.Pairwise.sublist hm h

theorem Ascending.append {m : List α} (hl : Ascending key l) (hm : Ascending key m)
    (hlm : ∀ a ∈ l, ∀ b ∈ m, key a < key b) : Ascending key (l ++ m) :=
  List.pairwise_append.mpr ⟨hl, hm, hlm⟩

theorem Ascending.key_le_getLast (h : Ascending key l) (hne : l ≠ []) (hx : x ∈ l) :
    key x ≤ key (l.getLast hne) := by
  rw [← List.dropLast_append_getLast hne] at h hx
  rcases List.mem_append.mp hx with hx | hx
  · exact le_of_lt ((List.pairwise_append.mp h).2.2 x hx _ (by simp))
  · rw [List.mem_singleton.mp hx]

/-- Ascending lists with the same members are the same. -/
theorem Ascending.eq_of_mem_iff {m : List α} (hl : Ascending key l) (hm : Ascending key m)
    (h : ∀ x, x ∈ l ↔ x ∈ m) : l = m := by
  have hirrefl : Std.Irrefl fun a b : α ↦ key a < key b := ⟨fun a ↦ lt_irrefl (key a)⟩
  have hantisymm : Std.Antisymm fun a b : α ↦ key a < key b :=
    ⟨fun a b hab hba ↦ absurd hab (lt_asymm hba)⟩
  exact List.Pairwise.eq_of_mem_iff hl hm h

theorem Ascending.mem_drop_succ_iff (h : Ascending key l) {i : ℕ} (hi : i < l.length) :
    x ∈ l.drop (i + 1) ↔ x ∈ l ∧ key l[i] < key x := by
  have hlt : ∀ a b (ha : a < l.length) (hb : b < l.length), a < b → key l[a] < key l[b] :=
    List.pairwise_iff_getElem.mp h
  constructor
  · intro hx
    obtain ⟨j, hj, rfl⟩ := List.mem_drop_iff_getElem.mp hx
    exact ⟨List.getElem_mem _, hlt i (i + 1 + j) hi (by omega) (by omega)⟩
  · rintro ⟨hx, hkey⟩
    obtain ⟨j, hj, rfl⟩ := List.mem_iff_getElem.mp hx
    have hij : i < j := by
      by_contra hle
      rcases eq_or_lt_of_le (not_lt.mp hle) with rfl | hji
      · exact lt_irrefl _ hkey
      · exact lt_asymm hkey (hlt j i hj hi hji)
    refine List.mem_drop_iff_getElem.mpr ⟨j - (i + 1), by omega, ?_⟩
    congr 1
    omega

/-- The key at position `i` of an ascending list reaches `m` when as many keys do as stand there
or behind. -/
theorem Ascending.le_key_getElem_iff (h : Ascending key l) {i : ℕ} (hi : i < l.length) (m : κ) :
    m ≤ key l[i] ↔ l.length - i ≤ l.countP fun x ↦ decide (m ≤ key x) := by
  have hlt : ∀ a b (ha : a < l.length) (hb : b < l.length), a < b → key l[a] < key l[b] :=
    List.pairwise_iff_getElem.mp h
  constructor
  · intro hle
    have hall : ∀ x ∈ l.drop i, decide (m ≤ key x) = true := by
      intro x hx
      obtain ⟨j, hj, rfl⟩ := List.mem_drop_iff_getElem.mp hx
      rcases Nat.eq_zero_or_pos j with rfl | hpos
      · simpa using hle
      · exact decide_eq_true (hle.trans (hlt i (i + j) hi (by omega) (by omega)).le)
    rw [← List.length_drop, ← List.countP_eq_length.mpr hall]
    exact (List.drop_sublist i l).countP_le
  · intro hcount
    by_contra hnot
    -- the keys up to position `i` fall short, so only those behind it count
    have hnone : (l.take (i + 1)).countP (fun x ↦ decide (m ≤ key x)) = 0 := by
      refine List.countP_eq_zero.mpr fun x hx ↦ ?_
      obtain ⟨j, hj, rfl⟩ := List.mem_take_iff_getElem.mp hx
      rw [decide_eq_true_iff, not_le]
      rcases eq_or_lt_of_le (show j ≤ i by omega) with rfl | hji
      · exact not_le.mp hnot
      · exact (hlt j i (by omega) hi hji).trans (not_le.mp hnot)
    have hsplit := congrArg (List.countP fun x ↦ decide (m ≤ key x))
      (List.take_append_drop (i + 1) l)
    rw [List.countP_append, hnone, Nat.zero_add] at hsplit
    have hrest := List.countP_le_length (p := fun x ↦ decide (m ≤ key x)) (l := l.drop (i + 1))
    rw [List.length_drop] at hrest
    omega

end Sorting

/-- Rows with pairwise distinct keys. -/
structure Table (key : α → κ) where
  /-- The rows, in no particular order. -/
  rows : List α
  /-- No two rows share a key. -/
  nodup_keys : (rows.map key).Nodup

namespace Table

variable {t : Table key} {x y : α} {xs ys : List α}

instance : Membership α (Table key) := ⟨fun t x ↦ x ∈ t.rows⟩

@[simp] theorem mem_rows : x ∈ t.rows ↔ x ∈ t := Iff.rfl

instance [DecidableEq α] : Decidable (x ∈ t) := inferInstanceAs (Decidable (x ∈ t.rows))

theorem eq_of_key_eq (hx : x ∈ t) (hy : y ∈ t) (h : key x = key y) : x = y :=
  List.inj_on_of_nodup_map t.nodup_keys hx hy h

/-- The empty table. -/
def empty (key : α → κ) : Table key := ⟨[], List.nodup_nil⟩

/-! ## Insertion -/

section Insert

variable [DecidableEq κ]

/-- Inserts a row unless its key is taken. -/
def insertIgnore (t : Table key) (x : α) : Table key :=
  if h : key x ∈ t.rows.map key then t
  else
    { rows := t.rows ++ [x]
      nodup_keys := by
        rw [List.map_append, List.map_cons, List.map_nil]
        exact t.nodup_keys.append (List.nodup_singleton _) (by simpa using h) }

/-- Inserts rows one after the other; an existing key always wins. -/
def insertAll (t : Table key) (xs : List α) : Table key := xs.foldl insertIgnore t

theorem insertIgnore_of_mem (h : key x ∈ t.rows.map key) : t.insertIgnore x = t := dif_pos h

theorem rows_insertIgnore_of_not_mem (h : key x ∉ t.rows.map key) :
    (t.insertIgnore x).rows = t.rows ++ [x] := by
  rw [insertIgnore, dif_neg h]

theorem mem_insertIgnore :
    y ∈ t.insertIgnore x ↔ y ∈ t ∨ (y = x ∧ ∀ z ∈ t, key z ≠ key x) := by
  by_cases h : key x ∈ t.rows.map key
  · rw [insertIgnore_of_mem h]
    obtain ⟨z, hz, hzx⟩ := List.mem_map.mp h
    exact ⟨Or.inl, fun hy ↦ hy.elim id fun ⟨_, hno⟩ ↦ absurd hzx (hno z hz)⟩
  · rw [← mem_rows, rows_insertIgnore_of_not_mem h, List.mem_append, List.mem_singleton, mem_rows]
    have hno : ∀ z ∈ t, key z ≠ key x := fun z hz hzx ↦ h (List.mem_map.mpr ⟨z, hz, hzx⟩)
    exact or_congr_right ⟨fun hy ↦ ⟨hy, hno⟩, And.left⟩

@[simp] theorem insertAll_nil (t : Table key) : t.insertAll [] = t := rfl

@[simp] theorem insertAll_cons (t : Table key) (x : α) (xs : List α) :
    t.insertAll (x :: xs) = (t.insertIgnore x).insertAll xs := rfl

theorem insertAll_append (t : Table key) (xs ys : List α) :
    t.insertAll (xs ++ ys) = (t.insertAll xs).insertAll ys :=
  List.foldl_append

theorem mem_insertAll_of_mem (h : y ∈ t) : y ∈ t.insertAll xs := by
  induction xs generalizing t with
  | nil => exact h
  | cons x xs ih => exact ih (mem_insertIgnore.mpr (Or.inl h))

theorem mem_or_mem_of_mem_insertAll (h : y ∈ t.insertAll xs) : y ∈ t ∨ y ∈ xs := by
  induction xs generalizing t with
  | nil => exact Or.inl h
  | cons x xs ih =>
    rcases ih h with hy | hy
    · rcases mem_insertIgnore.mp hy with hy | ⟨rfl, -⟩
      · exact Or.inl hy
      · exact Or.inr List.mem_cons_self
    · exact Or.inr (List.mem_cons_of_mem _ hy)

theorem exists_mem_insertAll_key_eq (h : x ∈ xs) : ∃ y ∈ t.insertAll xs, key y = key x := by
  induction xs generalizing t with
  | nil => exact absurd h (List.not_mem_nil)
  | cons z xs ih =>
    rw [insertAll_cons]
    rcases List.mem_cons.mp h with rfl | h
    · by_cases hk : ∃ y ∈ t, key y = key x
      · -- the key is taken, by a row that stays
        obtain ⟨y, hy, hyx⟩ := hk
        exact ⟨y, mem_insertAll_of_mem (mem_insertIgnore.mpr (Or.inl hy)), hyx⟩
      · have hx : x ∈ t.insertIgnore x :=
          mem_insertIgnore.mpr (Or.inr ⟨rfl, fun y hy hyx ↦ hk ⟨y, hy, hyx⟩⟩)
        exact ⟨x, mem_insertAll_of_mem hx, rfl⟩
    · exact ih h

theorem insertAll_of_taken (h : ∀ x ∈ xs, ∃ y ∈ t, key y = key x) : t.insertAll xs = t := by
  induction xs with
  | nil => rfl
  | cons x xs ih =>
    obtain ⟨y, hy, hyx⟩ := h x List.mem_cons_self
    rw [insertAll_cons, insertIgnore_of_mem (List.mem_map.mpr ⟨y, hy, hyx⟩)]
    exact ih fun z hz ↦ h z (List.mem_cons_of_mem _ hz)

/-- A row is inserted as it is when no other row in play has its key. -/
theorem mem_insertAll_of_determined (h : x ∈ xs)
    (hdet : ∀ y, y ∈ t ∨ y ∈ xs → key y = key x → y = x) : x ∈ t.insertAll xs := by
  obtain ⟨y, hy, hyx⟩ := exists_mem_insertAll_key_eq (t := t) h
  exact hdet y (mem_or_mem_of_mem_insertAll hy) hyx ▸ hy

end Insert

/-! ## Overwriting and looking up -/

section Put

variable [DecidableEq κ] {k : κ}

/-- Writes a row, in the place of the row with the same key when there is one (`HSET`). -/
def put (t : Table key) (x : α) : Table key :=
  if h : key x ∈ t.rows.map key then
    { rows := t.rows.map fun y ↦ if key y = key x then x else y
      nodup_keys := by
        have hkeys : (t.rows.map fun y ↦ if key y = key x then x else y).map key
            = t.rows.map key := by
          rw [List.map_map]
          refine List.map_congr_left fun y _ ↦ ?_
          by_cases hy : key y = key x <;> simp [hy]
        rw [hkeys]
        exact t.nodup_keys }
  else t.insertIgnore x

/-- The row with a given key (`HGET`). -/
def get? (t : Table key) (k : κ) : Option α := t.rows.find? fun y ↦ decide (key y = k)

theorem mem_put : y ∈ t.put x ↔ y = x ∨ (y ∈ t ∧ key y ≠ key x) := by
  by_cases h : key x ∈ t.rows.map key
  · obtain ⟨z, hz, hzx⟩ := List.mem_map.mp h
    rw [put, dif_pos h, ← mem_rows, List.mem_map]
    constructor
    · rintro ⟨w, hw, rfl⟩
      by_cases hwx : key w = key x
      · exact Or.inl (if_pos hwx)
      · rw [if_neg hwx]
        exact Or.inr ⟨hw, hwx⟩
    · rintro (rfl | ⟨hy, hyx⟩)
      · exact ⟨z, hz, if_pos hzx⟩
      · exact ⟨y, hy, if_neg hyx⟩
  · have hno : ∀ z ∈ t, key z ≠ key x := fun z hz hzx ↦ h (List.mem_map.mpr ⟨z, hz, hzx⟩)
    rw [put, dif_neg h, mem_insertIgnore, or_comm]
    exact ⟨fun hy ↦ hy.imp And.left fun hy ↦ ⟨hy, hno y hy⟩,
      fun hy ↦ hy.imp (fun hy ↦ ⟨hy, hno⟩) And.left⟩

theorem get?_eq_some : t.get? k = some y ↔ y ∈ t ∧ key y = k := by
  constructor
  · intro h
    exact ⟨List.mem_of_find?_eq_some h, by simpa using List.find?_some h⟩
  · rintro ⟨hy, rfl⟩
    obtain ⟨z, hz⟩ : ∃ z, t.rows.find? (fun z ↦ decide (key z = key y)) = some z :=
      Option.isSome_iff_exists.mp (List.find?_isSome.mpr ⟨y, hy, by simp⟩)
    have hzy : z = y :=
      eq_of_key_eq (t := t) (List.mem_of_find?_eq_some hz) hy (by simpa using List.find?_some hz)
    rw [get?, hz, hzy]

theorem get?_eq_none : t.get? k = none ↔ ∀ y ∈ t, key y ≠ k := by
  simp only [get?, List.find?_eq_none, decide_eq_true_iff, mem_rows]

end Put

/-! ## Deletion and selection -/

/-- Deletes the rows satisfying `p`. -/
def deleteWhere (t : Table key) (p : α → Bool) : Table key where
  rows := t.rows.filter fun x ↦ !p x
  nodup_keys := t.nodup_keys.sublist (List.filter_sublist.map key)

@[simp] theorem mem_deleteWhere {p : α → Bool} : y ∈ t.deleteWhere p ↔ y ∈ t ∧ p y = false := by
  rw [← mem_rows, deleteWhere, List.mem_filter, mem_rows, Bool.not_eq_true']

section Select

variable [LinearOrder κ] {k : κ}

/-- The rows with a key above `k`, in ascending key order. -/
def above (t : Table key) (k : κ) : List α :=
  sortByKey key (t.rows.filter fun x ↦ decide (k < key x))

@[simp] theorem mem_above : x ∈ t.above k ↔ x ∈ t ∧ k < key x := by
  rw [above, mem_sortByKey, List.mem_filter, decide_eq_true_iff, mem_rows]

theorem ascending_above (t : Table key) (k : κ) : Ascending key (t.above k) :=
  ascending_sortByKey (t.nodup_keys.sublist (List.filter_sublist.map key))

theorem above_deleteWhere {p : α → Bool} (h : ∀ x ∈ t, p x = true → key x ≤ k) :
    (t.deleteWhere p).above k = t.above k := by
  rw [above, above, deleteWhere, List.filter_filter]
  congr 1
  refine List.filter_congr fun x hx ↦ ?_
  cases hp : p x with
  | false => simp
  | true => simp [h x hx hp]

theorem filter_above_sublist (t : Table key) {j : κ} (hle : j ≤ k) :
    (t.rows.filter fun y ↦ decide (k < key y)).Sublist
      (t.rows.filter fun y ↦ decide (j < key y)) := by
  refine List.monotone_filter_right _ fun y hy ↦ ?_
  simp only [decide_eq_true_iff] at hy ⊢
  exact hle.trans_lt hy

theorem length_above_le (t : Table key) {j : κ} (hle : j ≤ k) :
    (t.above k).length ≤ (t.above j).length := by
  rw [above, above, length_sortByKey, length_sortByKey]
  exact (t.filter_above_sublist hle).length_le

theorem length_above_lt {j : κ} (hx : x ∈ t) (hj : j < key x) (hk : key x ≤ k) :
    (t.above k).length < (t.above j).length := by
  have hle : j ≤ k := hj.le.trans hk
  refine lt_of_le_of_ne (t.length_above_le hle) fun heq ↦ ?_
  rw [above, above, length_sortByKey, length_sortByKey] at heq
  have hmem : x ∈ t.rows.filter fun y ↦ decide (j < key y) :=
    List.mem_filter.mpr ⟨hx, decide_eq_true hj⟩
  -- selections of one length would be the same, and `x` is in only one of them
  rw [← (t.filter_above_sublist hle).eq_of_length heq, List.mem_filter, decide_eq_true_iff] at hmem
  exact absurd hmem.2 (not_lt.mpr hk)

end Select

end Table

end Keyed
