import Mathlib.Algebra.Order.Field.Rat
import Mathlib.Data.String.Basic
import Synapse.Metering.TokenBucket
import Synapse.Table.Cells

/-!
# The token buckets behind the socket events

The pure bucket functions and the limiter that keeps one bucket a key. Times are epoch milliseconds
and amounts are exact.

A bucket of this module is a bucket of `Metering` with its clock read in milliseconds and its
configuration carried along; `consume_ofBucket` is the step that makes every run of one an
instance of the other.
-/

namespace Synapse

open Keyed Metering

/-! ## The bucket -/

/-- Static configuration for a single token bucket. -/
structure BucketConfig where
  /-- Maximum number of tokens the bucket can hold. -/
  capacity : ℚ
  /-- Tokens added per second of elapsed time. -/
  refillPerSec : ℚ
  capacity_pos : 0 < capacity
  refillPerSec_pos : 0 < refillPerSec

/-- Runtime state of a single token bucket. -/
structure TokenBucket where
  tokens : ℚ
  /-- Epoch milliseconds of the last refill computation. -/
  lastRefill : ℚ
  capacity : ℚ
  refillPerSec : ℚ

/-- A new, full token bucket. -/
def createBucket (config : BucketConfig) (now : ℚ) : TokenBucket where
  tokens := config.capacity
  lastRefill := now
  capacity := config.capacity
  refillPerSec := config.refillPerSec

/-- Refills a bucket by the time since its last refill, floored at zero. -/
def refill (bucket : TokenBucket) (now : ℚ) : TokenBucket :=
  let elapsedSeconds := max 0 ((now - bucket.lastRefill) / 1000)
  { bucket with
    tokens := min bucket.capacity (bucket.tokens + elapsedSeconds * bucket.refillPerSec)
    lastRefill := now }

/-- Refills a bucket, then takes `cost` tokens out of it if it holds them. -/
def consume (bucket : TokenBucket) (now cost : ℚ) : Bool × TokenBucket :=
  let bucket := refill bucket now
  if cost ≤ bucket.tokens then (true, { bucket with tokens := bucket.tokens - cost })
  else (false, bucket)

/-- The bucket a map holds under a key, created full at the first call, and consumed from. -/
def consumeFrom (config : BucketConfig) (cost : ℚ) (bucket : Option TokenBucket) (now : ℚ) :
    Bool × Option TokenBucket :=
  let result := consume (bucket.getD (createBucket config now)) now cost
  (result.1, some result.2)

/-! ## The limiter -/

/-- The high-frequency socket events that are rate-limited per connection. -/
inductive RateLimitedEvent
  | draw
  | cursorMove
  deriving DecidableEq, Repr

/-- The event's name on the wire. -/
def RateLimitedEvent.name : RateLimitedEvent → String
  | draw => "draw"
  | cursorMove => "cursor-move"

/-- The bucket of `draw` events. -/
def drawBucket : BucketConfig := ⟨120, 120, by norm_num, by norm_num⟩

/-- The bucket of `cursor-move` events. -/
def cursorMoveBucket : BucketConfig := ⟨60, 60, by norm_num, by norm_num⟩

/-- The configuration of each event. -/
def RateLimitedEvent.config : RateLimitedEvent → BucketConfig
  | draw => drawBucket
  | cursorMove => cursorMoveBucket

/-- The configuration stored under an event name. -/
def eventBucketConfigs (event : String) : Option BucketConfig :=
  if event = RateLimitedEvent.draw.name then some drawBucket
  else if event = RateLimitedEvent.cursorMove.name then some cursorMoveBucket
  else none

/-- The event name of a key: everything before its first colon, or the whole key. -/
def eventFromKey (key : String) : String := String.ofList (key.toList.takeWhile (· ≠ ':'))

/-- The key under which a handler meters an event of a socket. -/
def RateLimitedEvent.key (event : RateLimitedEvent) (socketId : String) : String :=
  event.name ++ ":" ++ socketId

/-- What a call of the limiter answers and what it leaves under its key. Events without a
configuration are let through, and neither read nor write a bucket.

The event of the key must not be the name of a member that every object inherits, such as
`toString` or `constructor`: the source finds that member in place of a configuration, and refuses
the call. The keys of the handlers begin with `draw` and `cursor-move`. -/
def tryConsume (cost : ℚ) (key : String) (bucket : Option TokenBucket) (now : ℚ) :
    Bool × Option TokenBucket :=
  match eventBucketConfigs (eventFromKey key) with
  | none => (true, bucket)
  | some config => consumeFrom config cost bucket now

/-- The limiter's decisions on a list of calls of cost one, each a key and a clock reading. -/
def TokenBucketRateLimiter.decisions (buckets : Cells String TokenBucket)
    (calls : List (String × ℚ)) : List (String × ℚ × Bool) :=
  buckets.serve (tryConsume 1) calls

/-- A fresh limiter. -/
def TokenBucketRateLimiter.new : Cells String TokenBucket := fun _ ↦ none

/-- The calls let through in the `w` seconds from `a` on. -/
def allowedWithin (a w : ℚ) (decisions : List (ℚ × Bool)) : ℕ :=
  (decisions.filter fun d ↦ d.2 ∧ a ≤ d.1 ∧ d.1 ≤ a + 1000 * w).length

/-! ## Metered buckets -/

/-- The configuration, in tokens and seconds. -/
def BucketConfig.metering (config : BucketConfig) : Config ℚ where
  capacity := config.capacity
  rate := config.refillPerSec
  capacity_nonneg := config.capacity_pos.le
  rate_nonneg := config.refillPerSec_pos.le

/-- A metered bucket as the middleware stores it, in milliseconds. -/
def TokenBucket.ofBucket {config : BucketConfig} (m : Bucket config.metering) : TokenBucket where
  tokens := m.level
  lastRefill := 1000 * m.last
  capacity := config.capacity
  refillPerSec := config.refillPerSec

/-- A call of cost one at a clock reading. -/
def charge (now : ℚ) : Charge ℚ := ⟨now / 1000, 1, zero_le_one⟩

variable {config : BucketConfig}

theorem createBucket_eq_ofBucket (config : BucketConfig) (now : ℚ) :
    createBucket config now = TokenBucket.ofBucket (Bucket.full config.metering (now / 1000)) := by
  rw [createBucket, TokenBucket.ofBucket, Bucket.full, mul_div_cancel₀ _ (by norm_num)]
  rfl

theorem refill_ofBucket (m : Bucket config.metering) (now : ℚ) :
    refill (TokenBucket.ofBucket m) now = TokenBucket.ofBucket (m.refill (now / 1000)) := by
  have helapsed : (now - 1000 * m.last) / 1000 = now / 1000 - m.last := by ring
  simp only [refill, TokenBucket.ofBucket, helapsed, Bucket.refill_level, Bucket.refill_last,
    TokenBucket.mk.injEq, and_true]
  exact ⟨rfl, (mul_div_cancel₀ _ (by norm_num)).symm⟩

theorem consume_ofBucket (m : Bucket config.metering) (now : ℚ) :
    consume (TokenBucket.ofBucket m) now 1
      = ((m.consume (charge now)).1, TokenBucket.ofBucket (m.consume (charge now)).2) := by
  rw [consume, refill_ofBucket]
  unfold Bucket.consume
  by_cases h : (1 : ℚ) ≤ (m.refill (now / 1000)).level
  · rw [dif_pos (show (charge now).cost ≤ (m.refill (charge now).time).level from h)]
    exact if_pos h
  · rw [dif_neg (show ¬ (charge now).cost ≤ (m.refill (charge now).time).level from h)]
    exact if_neg h

/-! ## One bucket over a run -/

theorem answers_ofBucket (m : Bucket config.metering) (readings : List ℚ) :
    answers (consumeFrom config 1) (some (TokenBucket.ofBucket m)) readings
      = (m.decisions (readings.map charge)).map fun d ↦ (1000 * d.1.time, d.2) := by
  induction readings generalizing m with
  | nil => rfl
  | cons now readings ih =>
    have hnow : 1000 * (charge now).time = now := mul_div_cancel₀ _ (by norm_num)
    rw [answers_cons, List.map_cons, Bucket.decisions, List.map_cons, ← ih, hnow]
    simp only [consumeFrom, Option.getD_some, consume_ofBucket]

theorem answers_none_cons (config : BucketConfig) (now : ℚ) (readings : List ℚ) :
    answers (consumeFrom config 1) none (now :: readings)
      = answers (consumeFrom config 1)
          (some (TokenBucket.ofBucket (Bucket.full config.metering (now / 1000))))
          (now :: readings) := by
  rw [← createBucket_eq_ofBucket]
  rfl

theorem allowedWithin_ofBucket_le (m : Bucket config.metering) {readings : List ℚ}
    (hmono : readings.Pairwise (· ≤ ·)) (a : ℚ) {w : ℚ} (hw : 0 ≤ w) :
    (allowedWithin a w
      (answers (consumeFrom config 1) (some (TokenBucket.ofBucket m)) readings) : ℚ)
      ≤ config.capacity + config.refillPerSec * w := by
  have hcharges : (readings.map charge).Pairwise fun c c' ↦ c.time ≤ c'.time := by
    rw [List.pairwise_map]
    exact hmono.imp fun h ↦ div_le_div_of_nonneg_right h (by norm_num)
  have hwindow : a / 1000 ≤ a / 1000 + w := le_add_of_nonneg_right hw
  have hbound := Bucket.spent_within_le m hcharges hwindow
  have hunit : ∀ d ∈ Bucket.within (a / 1000) (a / 1000 + w) (m.decisions (readings.map charge)),
      d.1.cost = 1 := by
    intro d hd
    obtain ⟨now, -, hnow⟩ :=
      List.mem_map.mp (Bucket.mem_of_mem_decisions (List.mem_of_mem_filter hd))
    rw [← hnow]
    rfl
  have hcount : allowedWithin a w
      (answers (consumeFrom config 1) (some (TokenBucket.ofBucket m)) readings)
      = ((Bucket.within (a / 1000) (a / 1000 + w)
          (m.decisions (readings.map charge))).filter fun d ↦ d.2).length := by
    rw [answers_ofBucket, allowedWithin, List.filter_map, List.length_map, Bucket.within,
      List.filter_filter]
    congr 2
    funext d
    have hlow : a ≤ 1000 * d.1.time ↔ a / 1000 ≤ d.1.time := by
      rw [div_le_iff₀ (by norm_num), mul_comm]
    have hhigh : 1000 * d.1.time ≤ a + 1000 * w ↔ d.1.time ≤ a / 1000 + w := by
      constructor <;> intro h <;> linarith
    simp [hlow, hhigh]
  rw [Bucket.spent_eq_length hunit, add_sub_cancel_left] at hbound
  rw [hcount]
  exact hbound

/-- The window bound for one key, from the moment its bucket is created. -/
theorem allowedWithin_le (config : BucketConfig) {readings : List ℚ}
    (hmono : readings.Pairwise (· ≤ ·)) (a : ℚ) {w : ℚ} (hw : 0 ≤ w) :
    (allowedWithin a w (answers (consumeFrom config 1) none readings) : ℚ)
      ≤ config.capacity + config.refillPerSec * w := by
  cases readings with
  | nil =>
    exact add_nonneg config.capacity_pos.le (mul_nonneg config.refillPerSec_pos.le hw)
  | cons now readings =>
    rw [answers_none_cons]
    exact allowedWithin_ofBucket_le _ hmono a hw

/-- Of calls made at one moment, a new bucket lets its capacity through. -/
theorem length_granted_replicate (config : BucketConfig) {j : ℕ}
    (hcapacity : config.capacity = j) (now : ℚ) (n : ℕ) :
    ((answers (consumeFrom config 1) none (List.replicate n now)).filter fun d ↦ d.2).length
      = min j n := by
  cases n with
  | zero => simp
  | succ n =>
    rw [List.replicate_succ, answers_none_cons, answers_ofBucket, ← List.replicate_succ,
      List.map_replicate, List.filter_map, List.length_map]
    exact Bucket.length_granted_replicate (c := charge now) rfl hcapacity rfl (n + 1)

/-- Every bucket a call leaves behind is within bounds, whatever the clock read. -/
theorem consumeFrom_inBounds {bucket : Option TokenBucket} {now : ℚ} {b : TokenBucket}
    (hbucket : ∀ b₀, bucket = some b₀ → ∃ m : Bucket config.metering, b₀ = TokenBucket.ofBucket m)
    (h : (consumeFrom config 1 bucket now).2 = some b) :
    ∃ m : Bucket config.metering, b = TokenBucket.ofBucket m := by
  have hfrom : ∃ m : Bucket config.metering,
      bucket.getD (createBucket config now) = TokenBucket.ofBucket m := by
    cases bucket with
    | none => exact ⟨_, createBucket_eq_ofBucket config now⟩
    | some b₀ => exact hbucket b₀ rfl
  obtain ⟨m, hm⟩ := hfrom
  rw [consumeFrom, hm, consume_ofBucket] at h
  exact ⟨_, (Option.some.inj h).symm⟩

/-! ## The socket events -/

namespace RateLimitedEvent

variable (event : RateLimitedEvent) (socketId : String)

/-- No event name holds a colon, so the key names its event. -/
theorem eventFromKey_key : eventFromKey (event.key socketId) = event.name := by
  have hname : event.name.toList.all (fun c ↦ decide (c ≠ ':')) = true := by
    cases event <;> decide
  have hcolon : (":" : String).toList = [':'] := by decide
  rw [eventFromKey, key, String.toList_append, String.toList_append, hcolon, List.append_assoc,
    List.takeWhile_append_of_pos (List.all_eq_true.mp hname), List.singleton_append,
    List.takeWhile_cons_of_neg (by decide), List.append_nil, String.ofList_toList]

theorem eventBucketConfigs_name : eventBucketConfigs event.name = some event.config := by
  cases event with
  | draw => rfl
  | cursorMove => rfl

theorem tryConsume_key : tryConsume 1 (event.key socketId) = consumeFrom event.config 1 := by
  funext bucket now
  rw [tryConsume, eventFromKey_key, eventBucketConfigs_name]

end RateLimitedEvent

namespace TokenBucketRateLimiter

/-- The decisions on the calls of one key. -/
def decisionsOn (key : String) (calls : List (String × ℚ)) : List (ℚ × Bool) :=
  ((decisions new calls).filter fun d ↦ d.1 = key).map Prod.snd

variable (event : RateLimitedEvent) (socketId : String) (calls : List (String × ℚ))

theorem decisionsOn_eq_answers : decisionsOn (event.key socketId) calls
    = answers (consumeFrom event.config 1) none
        ((calls.filter fun c ↦ c.1 = event.key socketId).map Prod.snd) := by
  rw [decisionsOn, decisions, Cells.filter_serve, event.tryConsume_key]
  rfl

theorem decisionsOn_filter (key : String) :
    decisionsOn key calls = decisionsOn key (calls.filter fun c ↦ c.1 = key) := by
  refine Cells.filter_serve_congr rfl ?_
  rw [List.filter_filter]
  simp only [Bool.and_self]

/-- Every stored bucket is a bucket of its event. -/
theorem after_inBounds {b : TokenBucket}
    (h : Cells.after (tryConsume 1) new calls (event.key socketId) = some b) :
    ∃ m : Bucket event.config.metering, b = TokenBucket.ofBucket m := by
  refine Cells.after_invariant (P := fun key b ↦ ∀ event : RateLimitedEvent, ∀ socketId,
    key = event.key socketId → ∃ m : Bucket event.config.metering, b = TokenBucket.ofBucket m)
    ?_ ?_ calls _ _ h event socketId rfl
  · intro k b hk
    cases hk
  · rintro _ bucket now b hbucket hb event socketId rfl
    rw [event.tryConsume_key] at hb
    exact consumeFrom_inBounds (fun b₀ hb₀ ↦ hbucket b₀ hb₀ event socketId rfl) hb

/-- The tokens of every bucket stay in range for every clock; and for a clock that does not run
backwards, a key is let through at most `capacity + refillPerSec * w` times in any `w` seconds,
as it would be if no other key were used. -/
theorem rate_bound : (∀ b, Cells.after (tryConsume 1) new calls (event.key socketId) = some b →
      0 ≤ b.tokens ∧ b.tokens ≤ event.config.capacity) ∧
    ((calls.map Prod.snd).Pairwise (· ≤ ·) → ∀ a w : ℚ, 0 ≤ w →
      (allowedWithin a w (decisionsOn (event.key socketId) calls) : ℚ)
        ≤ event.config.capacity + event.config.refillPerSec * w) ∧
    decisionsOn (event.key socketId) calls
      = decisionsOn (event.key socketId) (calls.filter fun c ↦ c.1 = event.key socketId) := by
  refine ⟨fun b hb ↦ ?_, fun hmono a w hw ↦ ?_, decisionsOn_filter calls _⟩
  · obtain ⟨m, rfl⟩ := after_inBounds event socketId calls hb
    exact ⟨m.level_nonneg, m.level_le⟩
  · rw [decisionsOn_eq_answers]
    exact allowedWithin_le _ (hmono.sublist (List.filter_sublist.map _)) a hw

theorem rate_bound_draw :
    (allowedWithin 0 1 (decisionsOn "draw:a" [("draw:a", 0), ("cursor-move:a", 0), ("draw:b", 5),
      ("draw:a", 5)]) : ℚ) ≤ 120 + 120 * 1 :=
  (rate_bound .draw "a" _).2.1 (by simp) 0 1 zero_le_one

end TokenBucketRateLimiter

end Synapse
