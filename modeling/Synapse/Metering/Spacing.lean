import Synapse.Metering.TokenBucket

/-!
# Spaced requests

A sender keeps an interval between its requests, each of cost one, and a request arrives between no
time and `jitter` later than it could at best. If a bucket gains a token in an interval, it grants
them all, provided that the requests the jitter can bring together fit into it. The invariant is
`Bucket.Ready`: what the bucket lacks is made up for by how late the latest request was.
-/

namespace Metering

variable {𝕜 : Type*} [Field 𝕜] [LinearOrder 𝕜] [IsStrictOrderedRing 𝕜]

/-- A bucket that can keep up with a sender. -/
structure Pace (C : Config 𝕜) (interval jitter : 𝕜) : Prop where
  interval_pos : 0 < interval
  one_le : 1 ≤ C.rate * interval
  jitter_le : jitter ≤ (C.capacity - 1) * interval

namespace Bucket

variable {C : Config 𝕜} {m : Bucket C} {c : Charge 𝕜} {interval jitter late late' : 𝕜}

/-- After a request that was `late`, the bucket lacks no more than its token and one for every
interval that the next ones may be later. -/
def Ready (m : Bucket C) (interval jitter late : 𝕜) : Prop :=
  C.capacity ≤ m.level + 1 + (jitter - late) / interval

theorem ready_full (hinterval : 0 < interval) (hlate : late ≤ jitter) (now : 𝕜) :
    (full C now).Ready interval jitter (late + interval) := by
  have hsplit : (jitter - (late + interval)) / interval = (jitter - late) / interval - 1 := by
    rw [← sub_sub, sub_div, div_self hinterval.ne']
  have hslack : 0 ≤ (jitter - late) / interval := div_nonneg (sub_nonneg.mpr hlate) hinterval.le
  rw [Ready, hsplit]
  change C.capacity ≤ C.capacity + 1 + _
  linarith

theorem consume_of_le (h : c.cost ≤ (m.refill c.time).level) :
    (m.consume c).1 = true ∧ (m.consume c).2.level = (m.refill c.time).level - c.cost := by
  rw [consume, dif_pos h]
  exact ⟨rfl, rfl⟩

/-- **The next request is granted**, and the bucket is ready for the one after it. -/
theorem Ready.consume (h : m.Ready interval jitter late) (hpace : Pace C interval jitter)
    (hcost : c.cost = 1) (htime : m.last ≤ c.time)
    (hspaced : interval + late' - late ≤ c.time - m.last) (hnonneg : 0 ≤ late')
    (hle : late' ≤ jitter) :
    (m.consume c).1 = true ∧ (m.consume c).2.Ready interval jitter late' := by
  have hpos := hpace.interval_pos
  have hgap : 0 ≤ c.time - m.last := sub_nonneg.mpr htime
  have hslack : 0 ≤ (jitter - late') / interval := div_nonneg (sub_nonneg.mpr hle) hpos.le
  -- what the bucket gains meanwhile
  have hgain : 1 + (late' - late) / interval ≤ (c.time - m.last) * C.rate := by
    have hinv : 1 / interval ≤ C.rate := by
      rw [div_le_iff₀ hpos]
      exact hpace.one_le
    calc 1 + (late' - late) / interval
        = (interval + late' - late) / interval := by
          rw [add_sub_assoc, add_div, div_self hpos.ne']
      _ ≤ (c.time - m.last) / interval := div_le_div_of_nonneg_right hspaced hpos.le
      _ = (c.time - m.last) * (1 / interval) := by rw [mul_one_div]
      _ ≤ (c.time - m.last) * C.rate := mul_le_mul_of_nonneg_left hinv hgap
  have hlack : C.capacity ≤ (m.refill c.time).level + (jitter - late') / interval := by
    have hsplit : (jitter - late') / interval
        = (jitter - late) / interval - (late' - late) / interval := by
      rw [← sub_div]
      ring
    rw [refill_level, max_eq_right hgap]
    rcases min_choice C.capacity (m.level + (c.time - m.last) * C.rate) with hmin | hmin
    · rw [hmin]
      linarith
    · rw [hmin, hsplit]
      rw [Ready] at h
      linarith
  have henough : 1 ≤ (m.refill c.time).level := by
    have hjitter : (jitter - late') / interval ≤ C.capacity - 1 := by
      rw [div_le_iff₀ hpos]
      exact (sub_le_self _ hnonneg).trans hpace.jitter_le
    linarith
  obtain ⟨hgranted, hlevel⟩ := consume_of_le (hcost.trans_le henough)
  refine ⟨hgranted, ?_⟩
  rw [Ready, hlevel, hcost]
  linarith

end Bucket

end Metering
