import Synapse.Table.Keyed

/-!
# Looking up what was written

What the two ways to write a row, the one that keeps a row with the same key and the one that
replaces it, leave to be found under any key.
-/

namespace Keyed.Table

variable {α κ : Type*} [DecidableEq κ] {key : α → κ}

theorem get?_insertIgnore (t : Table key) (x : α) (k : κ) :
    (t.insertIgnore x).get? k = if key x = k then some ((t.get? k).getD x) else t.get? k := by
  split_ifs with hk
  · subst hk
    refine get?_eq_some.mpr ?_
    cases hget : t.get? (key x) with
    | none => exact ⟨mem_insertIgnore.mpr (Or.inr ⟨rfl, get?_eq_none.mp hget⟩), rfl⟩
    | some y =>
      obtain ⟨hy, hyx⟩ := get?_eq_some.mp hget
      exact ⟨mem_insertIgnore.mpr (Or.inl hy), hyx⟩
  · refine Option.ext fun y ↦ ?_
    rw [get?_eq_some, get?_eq_some, mem_insertIgnore]
    refine and_congr_left fun hy ↦ or_iff_left fun hyx ↦ hk ?_
    rw [← hyx.1, hy]

theorem get?_put (t : Table key) (x : α) (k : κ) :
    (t.put x).get? k = if key x = k then some x else t.get? k := by
  split_ifs with hk
  · exact get?_eq_some.mpr ⟨mem_put.mpr (Or.inl rfl), hk⟩
  · refine Option.ext fun y ↦ ?_
    rw [get?_eq_some, get?_eq_some, mem_put]
    refine and_congr_left fun hy ↦ ?_
    have hyx : y ≠ x := fun h ↦ hk (h ▸ hy)
    have hkey : key y ≠ key x := fun h ↦ hk (h ▸ hy)
    rw [or_iff_right hyx, and_iff_left hkey]

end Keyed.Table
