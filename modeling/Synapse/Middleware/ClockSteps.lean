import Synapse.Metering.Clock
import Synapse.Middleware.RateLimiter

/-!
# A bucket under a clock that steps back

`refill` floors the elapsed time at zero, so a clock that goes back takes no tokens away and adds
none. It also moves `lastRefill` back, and when the clock comes forward again the same stretch of
time is credited once more. The total a bucket lets through is bounded by its capacity and what it
gains up to the highest reading exactly when that never happens: when the clock, seen from the
creation of the bucket on, has no valley.

The bound for a clock without a valley is `Metering.climb_eq_of_not_valley`. For the converse the
bucket is emptied at its creation, on both shoulders of the valley and nowhere else, at a rate that
makes every gain a whole number of tokens.
-/

namespace Synapse

open Metering

/-- How many calls of cost one a bucket lets through. -/
def TokenBucket.granted (bucket : TokenBucket) : List ℚ → ℕ
  | [] => 0
  | now :: readings =>
    (consume bucket now 1).1.toNat + granted (consume bucket now 1).2 readings

/-- A bucket created at `t₀` lets through no more than its capacity and what it gains up to the
highest reading. -/
def Bounded (config : BucketConfig) (t₀ : ℚ) (readings : List ℚ) : Prop :=
  ((createBucket config t₀).granted readings : ℚ)
    ≤ config.capacity + config.refillPerSec * (latest t₀ readings - t₀) / 1000

instance (config : BucketConfig) (t₀ : ℚ) (readings : List ℚ) :
    Decidable (Bounded config t₀ readings) :=
  inferInstanceAs (Decidable (_ ≤ _))

variable {config : BucketConfig} {t₀ a b c : ℚ}

theorem granted_ofBucket (m : Bucket config.metering) (readings : List ℚ) :
    (TokenBucket.ofBucket m).granted readings = m.granted (readings.map charge) := by
  induction readings generalizing m with
  | nil => rfl
  | cons now readings ih =>
    rw [TokenBucket.granted, consume_ofBucket, ih, List.map_cons, Bucket.granted_cons]

/-! ## Without a valley -/

theorem granted_le_climb (config : BucketConfig) (t₀ : ℚ) (readings : List ℚ) :
    ((createBucket config t₀).granted readings : ℚ)
      ≤ config.capacity + config.refillPerSec * (climb t₀ readings / 1000) := by
  have hcost : ∀ d ∈ (Bucket.full config.metering (t₀ / 1000)).decisions (readings.map charge),
      d.1.cost = 1 := by
    intro d hd
    obtain ⟨now, -, hnow⟩ := List.mem_map.mp (Bucket.mem_of_mem_decisions hd)
    rw [← hnow]
    rfl
  have hspent :=
    Bucket.spent_le_climb (Bucket.full config.metering (t₀ / 1000)) (readings.map charge)
  have htimes : (readings.map charge).map Charge.time = readings.map (· / 1000) := by
    rw [List.map_map]
    rfl
  rw [Bucket.spent_eq_length hcost, htimes] at hspent
  rw [createBucket_eq_ofBucket, granted_ofBucket, ← climb_map_div (by norm_num)]
  exact hspent

theorem bounded_of_not_valley {readings : List ℚ} (h : ¬ Valley (t₀ :: readings)) :
    Bounded config t₀ readings := by
  have hle := granted_le_climb config t₀ readings
  rw [climb_eq_of_not_valley h, ← mul_div_assoc] at hle
  exact hle

theorem valley_of_valley_stretches {clock : List ℚ} {calls : List (ℚ × ℕ)}
    (hclock : calls.map Prod.fst = t₀ :: clock) (h : Valley (t₀ :: stretches calls)) :
    Valley (t₀ :: clock) := by
  obtain ⟨⟨t, n⟩, rest, rfl, rfl, rfl⟩ := List.map_eq_cons_iff.mp hclock
  obtain ⟨a, b, c, hsub, hba, hbc⟩ := h
  have hchain : [a, b, c].IsChain (· ≠ ·) := by simp [hba.ne', hbc.ne]
  have hreadings : t :: stretches ((t, n) :: rest) = stretches ((t, n + 1) :: rest) := by
    rw [stretches_cons, stretches_cons, List.replicate_succ, List.cons_append]
  rw [hreadings] at hsub
  exact ⟨a, b, c, sublist_map_fst_of_sublist_stretches hchain hsub, hba, hbc⟩

/-! ## Over a valley -/

/-- Calls at the creation of the bucket and around the valley only. -/
theorem exists_calls_of_sublist {clock : List ℚ} (hsub : [a, b, c].Sublist (t₀ :: clock)) (k : ℕ) :
    ∃ calls : List (ℚ × ℕ), calls.map Prod.fst = t₀ :: clock ∧
      stretches calls = List.replicate k t₀ ++ (List.replicate k a ++ (List.replicate 1 b ++
        (List.replicate k c ++ []))) := by
  rcases List.sublist_cons_iff.mp hsub with hrest | ⟨r, hr, hrest⟩
  · obtain ⟨calls, hclock, hsame⟩ := exists_stretches_eq [(a, k), (b, 1), (c, k)] hrest
    refine ⟨(t₀, k) :: calls, by rw [List.map_cons, hclock], ?_⟩
    rw [stretches_cons, hsame]
    rfl
  · -- the first shoulder is the creation itself
    obtain ⟨rfl, rfl⟩ := List.cons_eq_cons.mp hr
    obtain ⟨calls, hclock, hsame⟩ := exists_stretches_eq [(b, 1), (c, k)] hrest
    refine ⟨(a, k + k) :: calls, by rw [List.map_cons, hclock], ?_⟩
    rw [stretches_cons, hsame, List.replicate_add, List.append_assoc]
    rfl

theorem exists_common_unit {x y : ℚ} (hx : 0 ≤ x) (hy : 0 ≤ y) :
    ∃ D p q : ℕ, 0 < D ∧ x * D = p ∧ y * D = q := by
  refine ⟨x.den * y.den, x.num.toNat * y.den, y.num.toNat * x.den,
    Nat.mul_pos x.den_pos y.den_pos, ?_, ?_⟩
  · have hnum : ((x.num.toNat : ℕ) : ℚ) = x.num := by
      exact_mod_cast Int.toNat_of_nonneg (Rat.num_nonneg.mpr hx)
    push_cast
    rw [hnum, ← mul_assoc, Rat.mul_den_eq_num]
  · have hnum : ((y.num.toNat : ℕ) : ℚ) = y.num := by
      exact_mod_cast Int.toNat_of_nonneg (Rat.num_nonneg.mpr hy)
    push_cast
    rw [hnum, mul_comm (x.den : ℚ), ← mul_assoc, Rat.mul_den_eq_num]

/-- A configuration that gains `D` tokens a millisecond. -/
def perMillisecond (capacity D : ℕ) (hcapacity : 0 < capacity) (hD : 0 < D) : BucketConfig where
  capacity := capacity
  refillPerSec := 1000 * D
  capacity_pos := by exact_mod_cast hcapacity
  refillPerSec_pos := by positivity

/-- What the bucket lets through around a valley: its capacity, the gain up to the first shoulder
and the gain from the bottom to the second. -/
theorem granted_valley {D p q : ℕ} (hD : 0 < D) (hq : 0 < q) (hba : b < a)
    (hp : max 0 (a - t₀) * D = p) (hcb : max 0 (c - b) * D = q) :
    (createBucket (perMillisecond (p + q) D (by omega) hD) t₀).granted
      (List.replicate (p + q) t₀ ++ (List.replicate (p + q) a ++ (List.replicate 1 b ++
        (List.replicate (p + q) c ++ [])))) = (p + q) + (p + q) := by
  have hgain : ∀ {t u : ℚ} {j : ℕ}, max 0 (u - t) * D = j →
      max 0 ((charge u).time - t / 1000) * (1000 * D) = j := by
    intro t u j h
    rw [charge, max_zero_div_sub_div (by norm_num), ← h]
    ring
  have hbottom : max 0 (b - a) * (D : ℚ) = (0 : ℕ) := by
    rw [max_eq_left (sub_nonpos.mpr hba.le), zero_mul, Nat.cast_zero]
  have hroom : ∀ {j : ℕ}, j ≤ p + q → (j : ℚ) ≤ ((p + q : ℕ) : ℚ) := fun h ↦ by exact_mod_cast h
  rw [createBucket_eq_ofBucket, granted_ofBucket]
  simp only [List.map_append, List.map_replicate, List.map_nil]
  have hfull : (Bucket.full (perMillisecond (p + q) D (by omega) hD).metering (t₀ / 1000)).level
      = (p + q : ℕ) := rfl
  rw [Bucket.granted_replicate_append rfl hfull rfl le_rfl,
    Bucket.granted_empty_replicate_append rfl (hgain hp) (hroom (by omega)) (by omega) (by omega),
    Bucket.granted_empty_replicate_append rfl (hgain hbottom) (hroom (by omega)) (by omega)
      Nat.one_pos,
    Bucket.granted_empty_replicate_append rfl (hgain hcb) (hroom (by omega)) (by omega) (by omega),
    Bucket.granted_nil]
  omega

/-- The way to the highest of four readings around a valley is shorter than the climb. -/
theorem latest_sub_lt (hba : b < a) (hbc : b < c) {readings : List ℚ}
    (h : ∀ u ∈ readings, u = t₀ ∨ u = a ∨ u = b ∨ u = c) :
    latest t₀ readings - t₀ < max 0 (a - t₀) + max 0 (c - b) := by
  have hfirst := le_max_left 0 (a - t₀)
  have hshoulder := le_max_right 0 (a - t₀)
  have hsecond : max 0 (c - b) = c - b := max_eq_right (sub_nonneg.mpr hbc.le)
  have hlatest : latest t₀ readings ≤ max t₀ (max a c) := by
    refine latest_le (le_max_left _ _) fun u hu ↦ ?_
    rcases h u hu with rfl | rfl | rfl | rfl
    · exact le_max_left _ _
    · exact le_max_of_le_right (le_max_left _ _)
    · exact le_max_of_le_right (le_max_of_le_left hba.le)
    · exact le_max_of_le_right (le_max_right _ _)
  have hmax : max t₀ (max a c) < t₀ + (max 0 (a - t₀) + (c - b)) := by
    refine max_lt ?_ (max_lt ?_ ?_) <;> linarith
  rw [hsecond]
  linarith

/-- **Over a valley more is let through** than up to the highest reading is gained. -/
theorem exists_not_bounded {clock : List ℚ} (h : Valley (t₀ :: clock)) :
    ∃ config calls, calls.map Prod.fst = t₀ :: clock ∧
      ¬ Bounded config t₀ (stretches calls) := by
  obtain ⟨a, b, c, hsub, hba, hbc⟩ := h
  obtain ⟨D, p, q, hD, hp, hq⟩ :=
    exists_common_unit (le_max_left 0 (a - t₀)) (le_max_left 0 (c - b))
  have hD' : (0 : ℚ) < D := by exact_mod_cast hD
  have hqpos : 0 < q := by
    have : (0 : ℚ) < q := hq ▸ mul_pos (lt_max_of_lt_right (sub_pos.mpr hbc)) hD'
    exact_mod_cast this
  obtain ⟨calls, hclock, hreadings⟩ := exists_calls_of_sublist hsub (p + q)
  refine ⟨perMillisecond (p + q) D (by omega) hD, calls, hclock, fun hbounded ↦ ?_⟩
  have hcount := hreadings ▸ granted_valley hD hqpos hba hp hq
  have hway : latest t₀ (stretches calls) - t₀ < max 0 (a - t₀) + max 0 (c - b) := by
    refine latest_sub_lt hba hbc fun u hu ↦ ?_
    rw [hreadings] at hu
    simp only [List.mem_append, List.mem_replicate, List.not_mem_nil, or_false] at hu
    tauto
  have hgain : latest t₀ (stretches calls) * D - t₀ * D < p + q := by
    rw [← hp, ← hq, ← sub_mul, ← add_mul]
    exact mul_lt_mul_of_pos_right hway hD'
  rw [Bounded, hcount] at hbounded
  simp only [perMillisecond] at hbounded
  push_cast at hbounded
  linarith

end Synapse
