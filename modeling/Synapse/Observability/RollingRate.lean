import Mathlib.Data.Rat.Floor
import Synapse.Window.Ring

/-!
# The rolling rate

`RollingRate` of `metrics.ts`: one bucket a second of the window, in a ring. It answers as a log of
all records would, as long as the clock does not run backwards (`rollingRate_eq_log`).

Readings are milliseconds; they and the amounts are exact.
-/

namespace Synapse

open Window

/-- One second of the window. -/
structure RateBucket where
  epochSecond : ℤ := -1
  count : ℚ := 0

/-- Fixed-memory rolling counter over a sliding window of whole seconds. -/
structure RollingRate (windowSeconds : ℕ) where
  buckets : Vector RateBucket windowSeconds

namespace RollingRate

variable {windowSeconds : ℕ}

def new (windowSeconds : ℕ) : RollingRate windowSeconds :=
  ⟨Vector.replicate windowSeconds {}⟩

/-- Records `amount` events into the bucket for the current second; `none` when there is no such
bucket. -/
def record (rate : RollingRate windowSeconds) (now amount : ℚ) :
    Option (RollingRate windowSeconds) :=
  let epochSecond := ⌊now / 1000⌋
  -- a remainder has the sign of the dividend
  let index := epochSecond.tmod windowSeconds
  if h : 0 ≤ index ∧ index.toNat < windowSeconds then
    let bucket := rate.buckets[index.toNat]
    let bucket := if bucket.epochSecond ≠ epochSecond then { epochSecond, count := 0 } else bucket
    some ⟨rate.buckets.set index.toNat { bucket with count := bucket.count + amount } h.2⟩
  else none

/-- Total events recorded within the trailing window of whole seconds. -/
def windowTotal (rate : RollingRate windowSeconds) (now : ℚ) : ℚ :=
  let epochSecond := ⌊now / 1000⌋
  let oldestInWindow := epochSecond - windowSeconds + 1
  rate.buckets.toList.foldl
    (fun total bucket ↦
      if oldestInWindow ≤ bucket.epochSecond ∧ bucket.epochSecond ≤ epochSecond then
        total + bucket.count
      else total) 0

/-- Average events per second over the trailing window. -/
def ratePerSecond (rate : RollingRate windowSeconds) (now : ℚ) : ℚ :=
  rate.windowTotal now / windowSeconds

end RollingRate

/-- A call of a method. -/
inductive RateCall
  | record (amount : ℚ)
  | windowTotal
  | ratePerSecond

/-- What the queries among calls at given readings are answered; `none` when a call fails. -/
def RollingRate.answers {windowSeconds : ℕ} (rate : RollingRate windowSeconds) :
    List (ℚ × RateCall) → Option (List ℚ)
  | [] => some []
  | (now, .record amount) :: calls => (rate.record now amount).bind fun rate ↦ rate.answers calls
  | (now, .windowTotal) :: calls => (rate.answers calls).map (rate.windowTotal now :: ·)
  | (now, .ratePerSecond) :: calls => (rate.answers calls).map (rate.ratePerSecond now :: ·)

/-- What they would be answered from a log of all records. -/
def logAnswers (windowSeconds : ℕ) (log : Log ℚ) : List (ℚ × RateCall) → List ℚ
  | [] => []
  | (now, .record amount) :: calls => logAnswers windowSeconds ((⌊now / 1000⌋, amount) :: log) calls
  | (now, .windowTotal) :: calls =>
    log.sumIn (⌊now / 1000⌋ - windowSeconds + 1) ⌊now / 1000⌋ :: logAnswers windowSeconds log calls
  | (now, .ratePerSecond) :: calls =>
    log.sumIn (⌊now / 1000⌋ - windowSeconds + 1) ⌊now / 1000⌋ / windowSeconds ::
      logAnswers windowSeconds log calls

namespace RollingRate

variable {windowSeconds : ℕ} {rate : RollingRate windowSeconds} {log : Log ℚ} {now : ℚ}

/-- The buckets as slots. -/
def ring (rate : RollingRate windowSeconds) : Ring ℚ windowSeconds := fun i ↦
  ⟨rate.buckets[i].epochSecond, rate.buckets[i].count⟩

/-- The bucket of a second is the slot of its residue. -/
theorem record_eq (hW : 0 < windowSeconds) (hnow : 0 ≤ now) (rate : RollingRate windowSeconds)
    (amount : ℚ) : ∃ rate', rate.record now amount = some rate' ∧
      rate'.ring = rate.ring.add ⌊now / 1000⌋ amount := by
  have hsecond : 0 ≤ ⌊now / 1000⌋ := Int.floor_nonneg.mpr (by positivity)
  have hmod : ⌊now / 1000⌋.tmod windowSeconds = ⌊now / 1000⌋ % windowSeconds :=
    Int.tmod_eq_emod_of_nonneg hsecond
  have hpos : 0 ≤ ⌊now / 1000⌋ % (windowSeconds : ℤ) := Int.emod_nonneg _ (by omega)
  have hlt : (⌊now / 1000⌋ % (windowSeconds : ℤ)).toNat < windowSeconds := by
    have := Int.emod_lt_of_pos ⌊now / 1000⌋ (Int.natCast_pos.mpr hW)
    omega
  unfold record
  simp only [hmod]
  rw [dif_pos ⟨hpos, hlt⟩]
  refine ⟨_, rfl, funext fun i ↦ ?_⟩
  simp only [ring, Ring.add, Fin.getElem_fin, Vector.getElem_set]
  by_cases hi : (⌊now / 1000⌋ % (windowSeconds : ℤ)).toNat = i
  · have hres : ⌊now / 1000⌋ % (windowSeconds : ℤ) = (i : ℤ) := by omega
    rw [if_pos hres]
    simp only [hi, if_true, Slot.add]
    by_cases hbucket : rate.buckets[(i : ℕ)].epochSecond = ⌊now / 1000⌋
    · simp [hbucket]
    · simp [hbucket]
  · have hres : ⌊now / 1000⌋ % (windowSeconds : ℤ) ≠ (i : ℤ) := by omega
    rw [if_neg hres]
    simp only [if_neg hi]

theorem foldl_add_within (buckets : List RateBucket) (a b : ℤ) (total : ℚ) :
    buckets.foldl (fun total bucket ↦
        if a ≤ bucket.epochSecond ∧ bucket.epochSecond ≤ b then total + bucket.count else total)
      total
      = total + (buckets.map fun k ↦ (Slot.mk k.epochSecond k.count).within a b).sum := by
  induction buckets generalizing total with
  | nil => simp
  | cons bucket buckets ih =>
    rw [List.foldl_cons, ih, List.map_cons, List.sum_cons, ← add_assoc]
    congr 1
    by_cases hin : a ≤ bucket.epochSecond ∧ bucket.epochSecond ≤ b <;> simp [Slot.within, hin]

theorem windowTotal_eq : rate.windowTotal now
    = rate.ring.total (⌊now / 1000⌋ - windowSeconds + 1) ⌊now / 1000⌋ := by
  have hlist : rate.buckets.toList = List.ofFn fun i : Fin windowSeconds ↦ rate.buckets[i] := by
    refine List.ext_getElem (by simp) fun i hi hi' ↦ ?_
    simp
  rw [windowTotal, foldl_add_within, zero_add, hlist, List.map_ofFn, List.sum_ofFn]
  rfl

theorem answers_eq (hW : 0 < windowSeconds) (h : rate.ring.Keeps log)
    {calls : List (ℚ × RateCall)} (hnonneg : ∀ c ∈ calls, 0 ≤ c.1)
    (hmono : calls.Pairwise fun c d ↦ c.1 ≤ d.1)
    (hlog : ∀ e ∈ log, ∀ c ∈ calls, e.1 ≤ ⌊c.1 / 1000⌋) :
    rate.answers calls = some (logAnswers windowSeconds log calls) := by
  induction calls generalizing rate log with
  | nil => rfl
  | cons c calls ih =>
    obtain ⟨now, call⟩ := c
    obtain ⟨hfirst, hmono'⟩ := List.pairwise_cons.mp hmono
    have hnow : 0 ≤ now := hnonneg _ List.mem_cons_self
    have hrest : ∀ c ∈ calls, 0 ≤ c.1 := fun c hc ↦ hnonneg c (List.mem_cons_of_mem _ hc)
    have hbefore : ∀ e ∈ log, e.1 ≤ ⌊now / 1000⌋ := fun e he ↦ hlog e he _ List.mem_cons_self
    have hlater : ∀ e ∈ log, ∀ c ∈ calls, e.1 ≤ ⌊c.1 / 1000⌋ :=
      fun e he c hc ↦ hlog e he c (List.mem_cons_of_mem _ hc)
    have htotal := windowTotal_eq.trans (Ring.total_eq h hW hbefore)
    cases call with
    | record amount =>
      obtain ⟨rate', hrecord, hring⟩ := record_eq hW hnow rate amount
      have hkeeps : rate'.ring.Keeps ((⌊now / 1000⌋, amount) :: log) := hring ▸ h.add hbefore
      rw [answers, hrecord, Option.bind_some, ih hkeeps hrest hmono', logAnswers]
      intro e he c hc
      rcases List.mem_cons.mp he with rfl | he
      · exact Int.floor_le_floor (div_le_div_of_nonneg_right (hfirst c hc) (by norm_num))
      · exact hlater e he c hc
    | windowTotal => rw [answers, ih h hrest hmono' hlater, htotal, logAnswers, Option.map_some]
    | ratePerSecond =>
      rw [answers, ih h hrest hmono' hlater, ratePerSecond, htotal, logAnswers, Option.map_some]

end RollingRate

/-- **The rolling rate is as good as a log**: the total of the window is what was recorded in its
seconds, whatever gaps there were, and the rate is that over the length of the window. -/
theorem rollingRate_eq_log {windowSeconds : ℕ} (hW : 1 ≤ windowSeconds)
    {calls : List (ℚ × RateCall)} (hnonneg : ∀ c ∈ calls, 0 ≤ c.1)
    (hmono : calls.Pairwise fun c d ↦ c.1 ≤ d.1) :
    (RollingRate.new windowSeconds).answers calls = some (logAnswers windowSeconds [] calls) := by
  refine RollingRate.answers_eq hW (Ring.keeps_nil fun i ↦ ?_) hnonneg hmono
    fun e he ↦ absurd he List.not_mem_nil
  simp [RollingRate.ring, RollingRate.new]

/-- A minute later a second has the same slot. -/
theorem rollingRate_eq_log_reused : (RollingRate.new 60).answers
    [(0, .record 5), (30000, .windowTotal), (60000, .record 7), (60000, .windowTotal),
      (60000, .ratePerSecond)] = some [5, 7, 7 / 60] := by
  rw [rollingRate_eq_log (by decide) (by simp) (by norm_num)]
  norm_num [logAnswers, Log.sumIn]

end Synapse
