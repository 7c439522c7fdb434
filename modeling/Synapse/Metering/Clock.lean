import Mathlib.Data.List.Chain
import Synapse.Metering.TokenBucket

/-!
# Clocks that go back

A refill takes the time since the last one, or nothing when the clock went back, and remembers the
new reading either way. So what a bucket gains over a run is not the time that passed but the climb
of its clock: every forward step counts, also one over a stretch the clock has been over before.

The climb of a clock that never turns upwards after a step back is the distance to its highest
reading. A clock that does has a *valley*, and climbs more than that.
-/

namespace Metering

section Path

variable {α : Type*} [LinearOrder α]

/-- The clock goes back and forward again. -/
def Valley (path : List α) : Prop := ∃ a b c, [a, b, c].Sublist path ∧ b < a ∧ b < c

theorem Valley.mono {path path' : List α} (h : Valley path) (hsub : path.Sublist path') :
    Valley path' :=
  let ⟨a, b, c, hpath, hba, hbc⟩ := h
  ⟨a, b, c, hpath.trans hsub, hba, hbc⟩

/-- The highest of a reading and those after it. -/
def latest (t : α) (us : List α) : α := us.foldl max t

theorem latest_cons (t u : α) (us : List α) : latest t (u :: us) = latest (max t u) us := rfl

theorem latest_le {t x : α} {us : List α} (ht : t ≤ x) (hus : ∀ u ∈ us, u ≤ x) :
    latest t us ≤ x := by
  induction us generalizing t with
  | nil => exact ht
  | cons u us ih =>
    rw [latest_cons]
    exact ih (max_le ht (hus u List.mem_cons_self)) fun v hv ↦ hus v (List.mem_cons_of_mem _ hv)

theorem latest_eq_self {t : α} {us : List α} (h : ∀ u ∈ us, u ≤ t) : latest t us = t := by
  induction us with
  | nil => rfl
  | cons u us ih =>
    rw [latest_cons, max_eq_left (h u List.mem_cons_self)]
    exact ih fun v hv ↦ h v (List.mem_cons_of_mem _ hv)

/-- After a step back the clock of a path without a valley does not exceed the lower reading. -/
theorem le_of_not_valley {t u : α} {us : List α} (h : ¬ Valley (t :: u :: us)) (hut : u < t) :
    ∀ v ∈ us, v ≤ u := by
  intro v hv
  by_contra hlt
  have hsub : [t, u, v].Sublist (t :: u :: us) :=
    ((List.singleton_sublist.mpr hv).cons_cons u).cons_cons t
  exact h ⟨t, u, v, hsub, hut, not_le.mp hlt⟩

end Path

/-! ## Stretches -/

section Stretches

variable {α : Type*}

/-- The readings of a clock that shows each value for a number of calls. -/
def stretches (calls : List (α × ℕ)) : List α := calls.flatMap fun p ↦ List.replicate p.2 p.1

@[simp] theorem stretches_nil : stretches ([] : List (α × ℕ)) = [] := rfl

@[simp] theorem stretches_cons (p : α × ℕ) (calls : List (α × ℕ)) :
    stretches (p :: calls) = List.replicate p.2 p.1 ++ stretches calls := rfl

theorem sublist_map_fst_of_sublist_stretches {l : List α} (hl : l.IsChain (· ≠ ·))
    {calls : List (α × ℕ)} (h : l.Sublist (stretches calls)) :
    l.Sublist (calls.map Prod.fst) := by
  induction calls generalizing l with
  | nil => exact h
  | cons p calls ih =>
    rw [stretches_cons, List.sublist_append_iff] at h
    obtain ⟨l₁, l₂, rfl, h₁, h₂⟩ := h
    obtain ⟨n, -, rfl⟩ := List.sublist_replicate_iff.mp h₁
    rw [List.isChain_append] at hl
    rw [List.map_cons, ← List.singleton_append]
    refine List.Sublist.append ?_ (ih hl.2.1 h₂)
    -- two equal readings in a row do not change the value
    match n, hl.1 with
    | 0, _ => exact List.nil_sublist _
    | 1, _ => exact List.Sublist.refl _
    | n + 2, hchain => exact absurd rfl (List.isChain_cons_cons.mp hchain).1

/-- Some of the values can be called at, the others being skipped. -/
theorem exists_stretches_eq {path : List α} (chosen : List (α × ℕ))
    (h : (chosen.map Prod.fst).Sublist path) :
    ∃ calls : List (α × ℕ), calls.map Prod.fst = path ∧ stretches calls = stretches chosen := by
  induction path generalizing chosen with
  | nil =>
    have hnil : chosen = [] := List.map_eq_nil_iff.mp (List.sublist_nil.mp h)
    exact ⟨[], rfl, by rw [hnil]⟩
  | cons x path ih =>
    rcases List.sublist_cons_iff.mp h with hskip | ⟨rest, hchosen, hrest⟩
    · obtain ⟨calls, hpath, hsame⟩ := ih chosen hskip
      exact ⟨(x, 0) :: calls, by rw [List.map_cons, hpath], hsame⟩
    · obtain ⟨p, chosen, rfl, rfl, rfl⟩ := List.map_eq_cons_iff.mp hchosen
      obtain ⟨calls, hpath, hsame⟩ := ih chosen hrest
      exact ⟨p :: calls, by rw [List.map_cons, hpath], by rw [stretches_cons, hsame]; rfl⟩

end Stretches

variable {𝕜 : Type*} [Field 𝕜] [LinearOrder 𝕜] [IsStrictOrderedRing 𝕜]

/-! ## The climb -/

/-- The sum of the forward steps of a clock. -/
def climb (t : 𝕜) : List 𝕜 → 𝕜
  | [] => 0
  | u :: us => max 0 (u - t) + climb u us

omit [IsStrictOrderedRing 𝕜] in
theorem climb_cons (t u : 𝕜) (us : List 𝕜) : climb t (u :: us) = max 0 (u - t) + climb u us := rfl

theorem max_zero_div_sub_div {k : 𝕜} (hk : 0 < k) (t u : 𝕜) :
    max 0 (u / k - t / k) = max 0 (u - t) / k := by
  rw [← sub_div, ← zero_div k, max_div_div_right hk.le, zero_div]

theorem climb_map_div {k : 𝕜} (hk : 0 < k) (t : 𝕜) (us : List 𝕜) :
    climb (t / k) (us.map (· / k)) = climb t us / k := by
  induction us generalizing t with
  | nil => exact (zero_div k).symm
  | cons u us ih =>
    rw [List.map_cons, climb_cons, climb_cons, ih, max_zero_div_sub_div hk, add_div]

/-- **Without a valley the climb is the way to the highest reading.** -/
theorem climb_eq_of_not_valley {t : 𝕜} {us : List 𝕜} (h : ¬ Valley (t :: us)) :
    climb t us = latest t us - t := by
  induction us generalizing t with
  | nil => exact (sub_self t).symm
  | cons u us ih =>
    have hrest : climb u us = latest u us - u :=
      ih fun hvalley ↦ h (hvalley.mono (List.sublist_cons_self t _))
    rw [climb_cons, hrest, latest_cons]
    rcases le_or_gt t u with htu | hut
    · rw [max_eq_right (sub_nonneg.mpr htu), max_eq_right htu]
      ring
    · have hlow := le_of_not_valley h hut
      rw [max_eq_left (sub_nonpos.mpr hut.le), max_eq_left hut.le, latest_eq_self hlow,
        latest_eq_self fun v hv ↦ (hlow v hv).trans hut.le]
      ring

namespace Bucket

variable {C : Config 𝕜} {m : Bucket C} {c : Charge 𝕜}

/-- **Whatever its clock does, a bucket pays out at most its level and what its clock climbs.** -/
theorem spent_le_climb (m : Bucket C) (cs : List (Charge 𝕜)) :
    spent (m.decisions cs) ≤ m.level + C.rate * climb m.last (cs.map Charge.time) := by
  induction cs generalizing m with
  | nil => simpa [decisions, climb] using m.level_nonneg
  | cons c cs ih =>
    have hrest := ih (m.consume c).2
    have hrefill : (m.refill c.time).level ≤ m.level + C.rate * max 0 (c.time - m.last) := by
      rw [refill_level, mul_comm C.rate]
      exact min_le_right _ _
    rw [consume_last] at hrest
    rw [decisions, spent_cons, List.map_cons, climb_cons]
    calc (if (m.consume c).1 then c.cost else 0) + spent ((m.consume c).2.decisions cs)
        ≤ (if (m.consume c).1 then c.cost else 0)
            + ((m.consume c).2.level + C.rate * climb c.time (cs.map Charge.time)) := by gcongr
      _ = (m.refill c.time).level + C.rate * climb c.time (cs.map Charge.time) := by
          rw [← add_assoc, consume_level]
      _ ≤ m.level + C.rate * max 0 (c.time - m.last)
            + C.rate * climb c.time (cs.map Charge.time) := by gcongr
      _ = m.level + C.rate * (max 0 (c.time - m.last) + climb c.time (cs.map Charge.time)) := by
          ring

/-! ## Bursts that empty the bucket -/

/-- An empty bucket. -/
def empty (C : Config 𝕜) (now : 𝕜) : Bucket C := ⟨0, now, le_rfl, C.capacity_nonneg⟩

/-- How many charges are granted. -/
def granted (m : Bucket C) (cs : List (Charge 𝕜)) : ℕ :=
  ((m.decisions cs).filter fun d ↦ d.2).length

theorem granted_cons (m : Bucket C) (c : Charge 𝕜) (cs : List (Charge 𝕜)) :
    m.granted (c :: cs) = (m.consume c).1.toNat + (m.consume c).2.granted cs := by
  rw [granted, decisions, List.filter_cons]
  cases (m.consume c).1 with
  | false => rw [if_neg Bool.false_ne_true, Bool.toNat_false, Nat.zero_add, granted]
  | true => rw [if_pos rfl, List.length_cons, Bool.toNat_true, Nat.add_comm, granted]

@[simp] theorem granted_nil (m : Bucket C) : m.granted [] = 0 := rfl

/-- Charges at one moment take all the whole tokens there are, and leave the bucket empty. -/
theorem granted_replicate_append (hcost : c.cost = 1) {j n : ℕ} (hlevel : m.level = j)
    (hlast : m.last = c.time) (hjn : j ≤ n) (cs : List (Charge 𝕜)) :
    m.granted (List.replicate n c ++ cs) = j + (empty C c.time).granted cs := by
  induction n generalizing m j with
  | zero =>
    obtain rfl := Nat.le_zero.mp hjn
    have hempty : m = empty C c.time := ext (hlevel.trans Nat.cast_zero) hlast
    rw [List.replicate_zero, List.nil_append, Nat.zero_add, hempty]
  | succ n ih =>
    rw [List.replicate_succ, List.cons_append, granted_cons]
    cases j with
    | zero =>
      rw [consume_of_level_zero hcost hlevel hlast]
      simpa using ih hlevel hlast (Nat.zero_le n)
    | succ j =>
      obtain ⟨hgranted, hleft⟩ := consume_of_level_succ hcost hlevel hlast
      rw [hgranted, ih hleft (consume_last m c) (Nat.le_of_succ_le_succ hjn), Bool.toNat_true]
      omega

theorem granted_refill (m : Bucket C) (c : Charge 𝕜) (cs : List (Charge 𝕜)) :
    (m.refill c.time).granted (c :: cs) = m.granted (c :: cs) := by
  rw [granted, granted, decisions_refill]

/-- An empty bucket pays out what it gains up to the next burst. -/
theorem granted_empty_replicate_append (hcost : c.cost = 1) {t : 𝕜} {j n : ℕ}
    (hgain : max 0 (c.time - t) * C.rate = j) (hcapacity : (j : 𝕜) ≤ C.capacity) (hjn : j ≤ n)
    (hn : 0 < n) (cs : List (Charge 𝕜)) :
    (empty C t).granted (List.replicate n c ++ cs) = j + (empty C c.time).granted cs := by
  obtain ⟨n, rfl⟩ := Nat.exists_eq_succ_of_ne_zero hn.ne'
  have hlevel : ((empty C t).refill c.time).level = j := by
    rw [refill_level, empty, zero_add, hgain, min_eq_right hcapacity]
  rw [List.replicate_succ, List.cons_append, ← granted_refill, ← List.cons_append,
    ← List.replicate_succ]
  exact granted_replicate_append hcost hlevel rfl hjn cs

end Bucket

end Metering
