import Mathlib.Algebra.Order.Field.Basic
import Mathlib.Algebra.BigOperators.Group.List.Basic
import Mathlib.Tactic.Linarith
import Mathlib.Tactic.Ring

/-!
# Token buckets

A bucket holds between `0` and `capacity` tokens and gains `rate` tokens a unit of time, up to its
capacity. A charge is granted when the bucket holds at least its cost, which it then loses. The
bounds on the level are fields of the bucket, so no bucket outside them can be built, whatever the
clock reads.

## The window bound

Over charges at non-decreasing times, what is granted inside a window of length `w` is at most
`capacity + rate * w`. The level is the potential: a grant takes its cost out of it, and time adds
at most `rate` a unit to it (`spent_le`). A window that opens in the middle of a run sees a bucket
that is full at best, which is where `capacity` comes from.
-/

namespace Metering

variable {𝕜 : Type*} [Field 𝕜] [LinearOrder 𝕜] [IsStrictOrderedRing 𝕜]

/-- What a bucket holds at most, and what it gains a unit of time. -/
structure Config (𝕜 : Type*) [Field 𝕜] [LinearOrder 𝕜] where
  /-- The greatest level. -/
  capacity : 𝕜
  /-- The tokens gained a unit of time. -/
  rate : 𝕜
  capacity_nonneg : 0 ≤ capacity
  rate_nonneg : 0 ≤ rate

/-- A bucket whose level is in range. -/
structure Bucket (C : Config 𝕜) where
  /-- The tokens held. -/
  level : 𝕜
  /-- The time of the last refill. -/
  last : 𝕜
  level_nonneg : 0 ≤ level
  level_le : level ≤ C.capacity

/-- A request for tokens at a time. -/
structure Charge (𝕜 : Type*) [Field 𝕜] [LinearOrder 𝕜] where
  /-- When the charge is made. -/
  time : 𝕜
  /-- How many tokens it takes. -/
  cost : 𝕜
  cost_nonneg : 0 ≤ cost

namespace Bucket

variable {C : Config 𝕜}

/-- A full bucket. -/
def full (C : Config 𝕜) (now : 𝕜) : Bucket C := ⟨C.capacity, now, C.capacity_nonneg, le_rfl⟩

/-- Adds what was gained since the last refill. A clock that ran backwards adds nothing. -/
def refill (m : Bucket C) (now : 𝕜) : Bucket C where
  level := min C.capacity (m.level + max 0 (now - m.last) * C.rate)
  last := now
  level_nonneg := le_min C.capacity_nonneg <|
    add_nonneg m.level_nonneg (mul_nonneg (le_max_left _ _) C.rate_nonneg)
  level_le := min_le_left _ _

/-- Grants a charge the bucket can pay for after the refill. -/
def consume (m : Bucket C) (c : Charge 𝕜) : Bool × Bucket C :=
  if h : c.cost ≤ (m.refill c.time).level then
    (true,
      { level := (m.refill c.time).level - c.cost
        last := c.time
        level_nonneg := sub_nonneg.mpr h
        level_le := (sub_le_self _ c.cost_nonneg).trans (m.refill c.time).level_le })
  else (false, m.refill c.time)

/-- The charges put to a bucket, each with its answer. -/
def decisions (m : Bucket C) : List (Charge 𝕜) → List (Charge 𝕜 × Bool)
  | [] => []
  | c :: cs => (c, (m.consume c).1) :: decisions (m.consume c).2 cs

/-- The tokens a list of answered charges took. -/
def spent (ds : List (Charge 𝕜 × Bool)) : 𝕜 :=
  (ds.map fun d ↦ if d.2 then d.1.cost else 0).sum

/-- The answered charges of a window. -/
def within (a b : 𝕜) (ds : List (Charge 𝕜 × Bool)) : List (Charge 𝕜 × Bool) :=
  ds.filter fun d ↦ a ≤ d.1.time ∧ d.1.time ≤ b

variable {m : Bucket C} {c : Charge 𝕜} {cs : List (Charge 𝕜)} {a b : 𝕜}

omit [IsStrictOrderedRing 𝕜] in
@[ext] theorem ext {m m' : Bucket C} (hlevel : m.level = m'.level) (hlast : m.last = m'.last) :
    m = m' := by
  cases m
  cases m'
  simp_all

@[simp] theorem refill_last (m : Bucket C) (now : 𝕜) : (m.refill now).last = now := rfl

theorem refill_level (m : Bucket C) (now : 𝕜) :
    (m.refill now).level = min C.capacity (m.level + max 0 (now - m.last) * C.rate) := rfl

theorem refill_level_le {now : 𝕜} (h : m.last ≤ now) :
    (m.refill now).level ≤ m.level + C.rate * (now - m.last) := by
  have hmax : max 0 (now - m.last) = now - m.last := max_eq_right (sub_nonneg.mpr h)
  rw [refill_level, hmax, mul_comm]
  exact min_le_right _ _

@[simp] theorem refill_refill (m : Bucket C) (now : 𝕜) :
    (m.refill now).refill now = m.refill now := by
  refine ext ?_ rfl
  rw [refill_level, refill_last, sub_self, max_self, zero_mul, add_zero]
  exact min_eq_right (m.refill now).level_le

@[simp] theorem consume_refill (m : Bucket C) (c : Charge 𝕜) :
    (m.refill c.time).consume c = m.consume c := by
  simp only [consume, refill_refill]

/-- What a charge takes leaves the level. -/
theorem consume_level (m : Bucket C) (c : Charge 𝕜) :
    (if (m.consume c).1 then c.cost else 0) + (m.consume c).2.level
      = (m.refill c.time).level := by
  unfold consume
  split
  · simp
  · simp

@[simp] theorem consume_last (m : Bucket C) (c : Charge 𝕜) : (m.consume c).2.last = c.time := by
  unfold consume
  split <;> rfl

/-! ## What the answers are about -/

theorem map_fst_decisions (m : Bucket C) (cs : List (Charge 𝕜)) :
    (m.decisions cs).map Prod.fst = cs := by
  induction cs generalizing m with
  | nil => rfl
  | cons c cs ih => rw [decisions, List.map_cons, ih]

theorem mem_of_mem_decisions {d : Charge 𝕜 × Bool} (h : d ∈ m.decisions cs) : d.1 ∈ cs := by
  rw [← map_fst_decisions m cs]
  exact List.mem_map_of_mem h

theorem decisions_refill (m : Bucket C) (c : Charge 𝕜) (cs : List (Charge 𝕜)) :
    (m.refill c.time).decisions (c :: cs) = m.decisions (c :: cs) := by
  rw [decisions, decisions, consume_refill]

theorem within_eq_nil (hc : ∀ c' ∈ cs, c.time ≤ c'.time) (h : b < c.time) :
    within a b (m.decisions (c :: cs)) = [] := by
  refine List.filter_eq_nil_iff.mpr fun d hd ↦ ?_
  have hlt : b < d.1.time := by
    rcases List.mem_cons.mp (mem_of_mem_decisions hd) with hd | hd
    · rwa [hd]
    · exact h.trans_le (hc _ hd)
  simp [hlt]

omit [IsStrictOrderedRing 𝕜] in
@[simp] theorem spent_nil : spent ([] : List (Charge 𝕜 × Bool)) = 0 := rfl

omit [IsStrictOrderedRing 𝕜] in
@[simp] theorem spent_cons (d : Charge 𝕜 × Bool) (ds : List (Charge 𝕜 × Bool)) :
    spent (d :: ds) = (if d.2 then d.1.cost else 0) + spent ds := by
  simp [spent]

omit [IsStrictOrderedRing 𝕜] in
/-- Where every charge costs one token, what was spent is the number of grants. -/
theorem spent_eq_length {ds : List (Charge 𝕜 × Bool)} (h : ∀ d ∈ ds, d.1.cost = 1) :
    spent ds = ((ds.filter fun d ↦ d.2).length : 𝕜) := by
  induction ds with
  | nil => simp
  | cons d ds ih =>
    rw [spent_cons, ih fun d' hd' ↦ h d' (List.mem_cons_of_mem _ hd'), h d List.mem_cons_self]
    cases hd : d.2 with
    | false => simp [hd]
    | true => simp [hd, add_comm]

/-! ## A burst -/

@[simp] theorem refill_self (m : Bucket C) : m.refill m.last = m := by
  refine ext ?_ rfl
  rw [refill_level, sub_self, max_self, zero_mul, add_zero]
  exact min_eq_right m.level_le

theorem consume_of_level_zero (hcost : c.cost = 1) (hlevel : m.level = (0 : ℕ))
    (hlast : m.last = c.time) : m.consume c = (false, m) := by
  have hself : m.refill c.time = m := by rw [← hlast, refill_self]
  rw [consume, dif_neg (by rw [hself, hlevel, hcost]; simp), hself]

theorem consume_of_level_succ (hcost : c.cost = 1) {j : ℕ} (hlevel : m.level = (j + 1 : ℕ))
    (hlast : m.last = c.time) : (m.consume c).1 = true ∧ (m.consume c).2.level = j := by
  have hself : m.refill c.time = m := by rw [← hlast, refill_self]
  have hgranted : (m.consume c).1 = true := by
    rw [consume, dif_pos (by rw [hself, hlevel, hcost]; simp)]
  refine ⟨hgranted, ?_⟩
  have h := consume_level m c
  rw [hgranted, if_pos rfl, hself, hlevel, hcost, Nat.cast_succ] at h
  linarith

/-- At one moment, a bucket holding `j` tokens grants the first `j` charges of one token. -/
theorem length_granted_replicate (hcost : c.cost = 1) {j : ℕ} (hlevel : m.level = j)
    (hlast : m.last = c.time) (n : ℕ) :
    ((m.decisions (List.replicate n c)).filter fun d ↦ d.2).length = min j n := by
  induction n generalizing m j with
  | zero => simp [decisions]
  | succ n ih =>
    cases j with
    | zero =>
      have hrest := ih hlevel hlast
      rw [List.replicate_succ, decisions, consume_of_level_zero hcost hlevel hlast]
      simpa using hrest
    | succ j =>
      obtain ⟨hgranted, hleft⟩ := consume_of_level_succ hcost hlevel hlast
      rw [List.replicate_succ, decisions, List.filter_cons_of_pos (by simpa using hgranted),
        List.length_cons, ih hleft (consume_last m c), Nat.add_min_add_right]

/-! ## The window bound -/

/-- From its last refill up to time `b`, a bucket pays out at most its level and what it gains. -/
theorem spent_le (hcs : cs.Pairwise fun c c' ↦ c.time ≤ c'.time)
    (hlast : ∀ c ∈ cs, m.last ≤ c.time) (ham : a ≤ m.last) (hmb : m.last ≤ b) :
    spent (within a b (m.decisions cs)) ≤ m.level + C.rate * (b - m.last) := by
  induction cs generalizing m with
  | nil => exact add_nonneg m.level_nonneg (mul_nonneg C.rate_nonneg (sub_nonneg.mpr hmb))
  | cons c cs ih =>
    obtain ⟨hc, hcs⟩ := List.pairwise_cons.mp hcs
    have hmc : m.last ≤ c.time := hlast c List.mem_cons_self
    by_cases hcb : c.time ≤ b
    · have hrest := ih (m := (m.consume c).2) hcs (by rwa [consume_last])
        (by rw [consume_last]; exact ham.trans hmc) (by rwa [consume_last])
      have hrefill := refill_level_le hmc
      rw [consume_last] at hrest
      rw [decisions, within, List.filter_cons_of_pos (by simpa using ⟨ham.trans hmc, hcb⟩),
        spent_cons]
      -- the grant is paid out of the refilled level, the rest out of what is left
      calc (if (m.consume c).1 then c.cost else 0)
            + spent (within a b ((m.consume c).2.decisions cs))
          ≤ (if (m.consume c).1 then c.cost else 0)
              + ((m.consume c).2.level + C.rate * (b - c.time)) := by gcongr
        _ = (m.refill c.time).level + C.rate * (b - c.time) := by
            rw [← add_assoc, consume_level]
        _ ≤ m.level + C.rate * (c.time - m.last) + C.rate * (b - c.time) := by gcongr
        _ = m.level + C.rate * (b - m.last) := by ring
    · rw [within_eq_nil hc (not_le.mp hcb), spent_nil]
      exact add_nonneg m.level_nonneg (mul_nonneg C.rate_nonneg (sub_nonneg.mpr hmb))

/-- Inside any window of a run, at most the capacity and what is gained over the window. -/
theorem spent_within_le (m : Bucket C) (hcs : cs.Pairwise fun c c' ↦ c.time ≤ c'.time)
    (hab : a ≤ b) : spent (within a b (m.decisions cs)) ≤ C.capacity + C.rate * (b - a) := by
  have hgain : 0 ≤ C.rate * (b - a) := mul_nonneg C.rate_nonneg (sub_nonneg.mpr hab)
  induction cs generalizing m with
  | nil => exact add_nonneg C.capacity_nonneg hgain
  | cons c cs ih =>
    obtain ⟨hc, hcs'⟩ := List.pairwise_cons.mp hcs
    by_cases hac : a ≤ c.time
    · -- the window opens here, on a bucket that is full at best
      by_cases hcb : c.time ≤ b
      · have hspent : spent (within a b ((m.refill c.time).decisions (c :: cs)))
            ≤ (m.refill c.time).level + C.rate * (b - c.time) := by
          refine spent_le hcs (fun c' hc' ↦ ?_) hac hcb
          rcases List.mem_cons.mp hc' with rfl | h
          · exact le_rfl
          · exact hc c' h
        rw [decisions_refill] at hspent
        calc spent (within a b (m.decisions (c :: cs)))
            ≤ (m.refill c.time).level + C.rate * (b - c.time) := hspent
          _ ≤ C.capacity + C.rate * (b - a) :=
            add_le_add (m.refill c.time).level_le
              (mul_le_mul_of_nonneg_left (sub_le_sub_left hac b) C.rate_nonneg)
      · rw [within_eq_nil hc (not_le.mp hcb), spent_nil]
        exact add_nonneg C.capacity_nonneg hgain
    · rw [decisions, within, List.filter_cons_of_neg (by simp [hac])]
      exact ih _ hcs'

end Bucket

end Metering
