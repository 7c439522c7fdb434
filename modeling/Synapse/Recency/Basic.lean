import Mathlib.Data.List.Induction
import Mathlib.Data.List.Nodup

/-!
# Most recently used

A list that holds the latest entries with different keys, the latest first. Touching an entry puts
it in front, takes out what has its key, and cuts the list to a capacity. What is cut off can not
come back before it is touched again, so the list is at all times the beginning of the list without
a bound (`foldl_touch`): the latest entry of each key, as often as the capacity allows.
-/

namespace Recency

variable {α κ : Type*} [DecidableEq κ] {key : α → κ}

/-- The first entry of each key. -/
def firsts (key : α → κ) : List α → List α
  | [] => []
  | a :: l => a :: (firsts key l).filter fun b ↦ decide (key b ≠ key a)

/-- Puts an entry in front of a list of at most `cap` entries with different keys. -/
def touch (key : α → κ) (cap : ℕ) (l : List α) (a : α) : List α :=
  (a :: l.filter fun b ↦ decide (key b ≠ key a)).take cap

/-! ## First entries -/

theorem nodup_firsts (l : List α) : ((firsts key l).map key).Nodup := by
  induction l with
  | nil => exact List.nodup_nil
  | cons a l ih =>
    rw [firsts, List.map_cons, List.nodup_cons]
    refine ⟨fun hmem ↦ ?_, ih.sublist (List.filter_sublist.map key)⟩
    obtain ⟨b, hb, hkey⟩ := List.mem_map.mp hmem
    exact of_decide_eq_true (List.mem_filter.mp hb).2 hkey

/-- A condition on keys may be checked before or after. -/
theorem firsts_filter (q : κ → Bool) (l : List α) :
    firsts key (l.filter fun a ↦ q (key a)) = (firsts key l).filter fun a ↦ q (key a) := by
  induction l with
  | nil => rfl
  | cons a l ih =>
    by_cases hq : q (key a) = true
    · rw [List.filter_cons_of_pos (p := fun a ↦ q (key a)) hq, firsts, firsts,
        List.filter_cons_of_pos (p := fun a ↦ q (key a)) hq, ih, List.filter_filter,
        List.filter_filter]
      simp only [Bool.and_comm]
    · rw [List.filter_cons_of_neg (p := fun a ↦ q (key a)) hq, ih, firsts,
        List.filter_cons_of_neg (p := fun a ↦ q (key a)) hq, List.filter_filter]
      refine List.filter_congr fun b _ ↦ ?_
      have hne : q (key b) = true → key b ≠ key a := fun hb heq ↦ hq (heq ▸ hb)
      by_cases hb : q (key b) = true <;> simp [hb, hne]

/-- The keys of the first entries are the different keys, in the order of their first entries. -/
theorem map_firsts (key : α → κ) : ∀ l : List α, (firsts key l).map key = (l.map key).eraseDups
  | [] => rfl
  | a :: l => by
    have hrest : ((l.map key).filter fun k ↦ !k == key a).eraseDups
        = ((firsts key l).filter fun b ↦ decide (key b ≠ key a)).map key := by
      have hfilter : (l.map key).filter (fun k ↦ !k == key a)
          = (l.filter fun b ↦ decide (key b ≠ key a)).map key := by
        rw [List.filter_map]
        congr 1
        refine List.filter_congr fun b _ ↦ ?_
        simp [beq_eq_decide]
      rw [hfilter, ← map_firsts key (l.filter fun b ↦ decide (key b ≠ key a))]
      exact congrArg _ (firsts_filter (fun k ↦ decide (k ≠ key a)) l)
    rw [firsts, List.map_cons, List.map_cons, List.eraseDups_cons, hrest]
termination_by l => l.length
decreasing_by exact Nat.lt_succ_of_le (List.length_filter_le _ _)

/-! ## The bound -/

/-- An entry that is cut off behind `n` others is behind `n` of them when one key is taken out. -/
theorem take_filter_take {l : List α} (hnodup : (l.map key).Nodup) (k : κ) (n : ℕ) :
    ((l.take (n + 1)).filter fun b ↦ decide (key b ≠ k)).take n
      = (l.filter fun b ↦ decide (key b ≠ k)).take n := by
  induction l generalizing n with
  | nil => rfl
  | cons a l ih =>
    obtain ⟨hfresh, hnodup⟩ := List.nodup_cons.mp hnodup
    rw [List.take_succ_cons]
    by_cases hk : key a = k
    · -- no other entry has the key
      have hkeep : l.filter (fun b ↦ decide (key b ≠ k)) = l := by
        refine List.filter_eq_self.mpr fun b hb ↦ decide_eq_true fun hbk ↦ hfresh ?_
        exact List.mem_map.mpr ⟨b, hb, hbk.trans hk.symm⟩
      have hcut : (l.take n).filter (fun b ↦ decide (key b ≠ k)) = l.take n := by
        refine List.filter_eq_self.mpr fun b hb ↦ ?_
        exact List.filter_eq_self.mp hkeep b (List.mem_of_mem_take hb)
      rw [List.filter_cons_of_neg (by simp [hk]), List.filter_cons_of_neg (by simp [hk]), hkeep,
        hcut, List.take_take, Nat.min_self]
    · rw [List.filter_cons_of_pos (by simp [hk]), List.filter_cons_of_pos (by simp [hk])]
      cases n with
      | zero => rfl
      | succ n => rw [List.take_succ_cons, List.take_succ_cons, ih hnodup n]

theorem touch_take {l : List α} (hnodup : (l.map key).Nodup) (cap : ℕ) (a : α) :
    touch key cap (l.take cap) a = touch key cap l a := by
  cases cap with
  | zero => rfl
  | succ n => rw [touch, touch, List.take_succ_cons, List.take_succ_cons, take_filter_take hnodup]

/-- **Nothing is forgotten too early.** After any entries have been touched the list is the first
entries of their keys from the latest back, up to the capacity. -/
theorem foldl_touch (cap : ℕ) (entries : List α) :
    entries.foldl (touch key cap) [] = (firsts key entries.reverse).take cap := by
  induction entries using List.reverseRecOn with
  | nil => exact List.take_nil.symm
  | append_singleton entries a ih =>
    rw [List.foldl_concat, ih, touch_take (nodup_firsts _), List.reverse_concat]
    rfl

end Recency
