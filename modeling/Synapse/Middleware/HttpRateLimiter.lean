import Synapse.Middleware.RateLimiter

/-!
# The rate limit of the join endpoint

`POST /api/rooms/:id/join` tests room passwords, and the limiter in front of it bounds how many
requests of one client reach that test. Buckets are kept under the client key, which is `req.ip`:
with `trust proxy` set, the left-most entry of a header the client itself may send.

## What one peer can get through

`passed_bound_iff` is exact. A peer whose requests all derive one key is held to the bucket's bound,
however other peers interleave with it; a peer that sends more than ten requests under two or more
keys is not, since every new key meets a full bucket.
-/

namespace Synapse.Http

open Keyed Metering

/-! ## The middleware -/

/-- What the limiter reads of a request. -/
structure Request where
  /-- The address of the TCP peer, when the socket still has one. -/
  remoteAddress : Option String
  /-- The entries of the `X-Forwarded-For` header from left to right, empty without the header. -/
  forwardedFor : List String
  deriving DecidableEq, Repr

/-- `req.ip` as the framework resolves it when every proxy is trusted. -/
def Request.ip (req : Request) : Option String := req.forwardedFor.head? <|> req.remoteAddress

/-- The client key from the request IP, with a shared fallback. -/
def defaultKeyOf (req : Request) : String := (req.ip <|> req.remoteAddress).getD "unknown"

/-- A response that ends the request. -/
structure Rejection where
  status : ℕ
  code : String
  message : String
  deriving DecidableEq, Repr

/-- The response on an empty bucket. -/
def rateLimited : Rejection := ⟨429, "RATE_LIMITED", "Too many requests; please retry shortly"⟩

/-- The bucket of the join endpoint: a burst of ten, then one request a second. -/
def defaultJoinRateLimit : BucketConfig := ⟨10, 1, by norm_num, by norm_num⟩

/-- The answer to the handler chain: `next()`, or the rejection. -/
def respond (granted : Bool) : Except Rejection Unit :=
  if granted then .ok () else .error rateLimited

/-- The middleware under one client key: a request and the clock reading it is served at. -/
def createHttpRateLimiter (config : BucketConfig) (_key : String) (bucket : Option TokenBucket)
    (call : Request × ℚ) : Except Rejection Unit × Option TokenBucket :=
  let result := consumeFrom config 1 bucket call.2
  (respond result.1, result.2)

/-- A run of the endpoint's limiter over requests of any peers, from an empty map. -/
def serveJoin (run : List (Request × ℚ)) : List (String × (Request × ℚ) × Except Rejection Unit) :=
  Cells.serve (createHttpRateLimiter defaultJoinRateLimit) (fun _ ↦ none)
    (run.map fun call ↦ (defaultKeyOf call.1, call))

/-- The request got past the limiter. -/
def Passed (answer : Except Rejection Unit) : Bool := answer.isOk

/-- How many requests of a peer got past the limiter in the `w` seconds from `a` on. -/
def passed (peer : Option String) (a w : ℚ) (run : List (Request × ℚ)) : ℕ :=
  ((serveJoin run).filter fun r ↦
    r.2.1.1.remoteAddress = peer ∧ Passed r.2.2 ∧ a ≤ r.2.1.2 ∧ r.2.1.2 ≤ a + 1000 * w).length

/-- The headers a peer sent, in order. -/
def sentBy (peer : Option String) (run : List (Request × ℚ)) : List (List String) :=
  (run.filter fun call ↦ call.1.remoteAddress = peer).map fun call ↦ call.1.forwardedFor

/-- The client key of a peer's request with a given header. -/
def keyOf (peer : Option String) (header : List String) : String := defaultKeyOf ⟨peer, header⟩

variable {run : List (Request × ℚ)} {peer : Option String} {key : String} {a w : ℚ}

@[simp] theorem passed_respond (granted : Bool) : Passed (respond granted) = granted := by
  cases granted <;> rfl

theorem keyOf_forwardedFor {req : Request} (h : req.remoteAddress = peer) :
    keyOf peer req.forwardedFor = defaultKeyOf req := by
  rw [keyOf, ← h]

theorem map_request_serveJoin (run : List (Request × ℚ)) :
    (serveJoin run).map (fun r ↦ (r.1, r.2.1))
      = run.map fun call ↦ (defaultKeyOf call.1, call) :=
  Cells.map_call_serve _ _ _

theorem mem_serveJoin {r : String × (Request × ℚ) × Except Rejection Unit}
    (h : r ∈ serveJoin run) : r.1 = defaultKeyOf r.2.1.1 ∧ r.2.1 ∈ run := by
  have hmem : (r.1, r.2.1) ∈ (serveJoin run).map fun r ↦ (r.1, r.2.1) := List.mem_map_of_mem h
  rw [map_request_serveJoin] at hmem
  obtain ⟨call, hcall, heq⟩ := List.mem_map.mp hmem
  obtain ⟨hkey, hreq⟩ := Prod.mk.inj heq
  rw [← hkey, ← hreq]
  exact ⟨rfl, hcall⟩

/-! ## One key -/

/-- The calls of a run under one key. -/
def callsUnder (key : String) (run : List (Request × ℚ)) : List (Request × ℚ) :=
  run.filter fun call ↦ defaultKeyOf call.1 = key

/-- The answers under one key are those of its bucket at the readings of its calls. -/
theorem map_filter_serveJoin (key : String) (run : List (Request × ℚ)) :
    ((serveJoin run).filter fun r ↦ r.1 = key).map (fun r ↦ (r.2.1.2, Passed r.2.2))
      = answers (consumeFrom defaultJoinRateLimit 1) none
          ((callsUnder key run).map Prod.snd) := by
  have hcalls : ((run.map fun call ↦ (defaultKeyOf call.1, call)).filter fun c ↦ c.1 = key).map
      Prod.snd = callsUnder key run := by
    rw [List.filter_map, List.map_map]
    exact List.map_id _
  have hserve := Cells.filter_serve (createHttpRateLimiter defaultJoinRateLimit) (fun _ ↦ none) key
    (run.map fun call ↦ (defaultKeyOf call.1, call))
  rw [hcalls] at hserve
  calc ((serveJoin run).filter fun r ↦ r.1 = key).map (fun r ↦ (r.2.1.2, Passed r.2.2))
      = (((serveJoin run).filter fun r ↦ r.1 = key).map Prod.snd).map
          fun r ↦ (r.1.2, Passed r.2) := by rw [List.map_map]; rfl
    _ = (answers (createHttpRateLimiter defaultJoinRateLimit key) none (callsUnder key run)).map
          fun r ↦ (r.1.2, Passed r.2) := by rw [serveJoin, hserve]
    _ = ((answers (fun bucket (call : Request × ℚ) ↦ consumeFrom defaultJoinRateLimit 1 bucket
          call.2) none (callsUnder key run)).map fun r ↦ (r.1, respond r.2)).map
          fun r ↦ (r.1.2, Passed r.2) := by rw [← answers_map]; rfl
    _ = answers (consumeFrom defaultJoinRateLimit 1) none ((callsUnder key run).map Prod.snd) := by
        rw [List.map_map, ← map_answers_comp Prod.snd]
        simp

/-- A peer's requests under one key get past the limiter at most as often as its bucket allows,
whoever else uses the key. -/
theorem passed_le (hmono : (run.map Prod.snd).Pairwise (· ≤ ·))
    (hkey : ∀ call ∈ run, call.1.remoteAddress = peer → defaultKeyOf call.1 = key) (a : ℚ)
    (hw : 0 ≤ w) : (passed peer a w run : ℚ) ≤ 10 + w := by
  have hbound := allowedWithin_le defaultJoinRateLimit
    (hmono.sublist (List.filter_sublist.map _ : ((callsUnder key run).map Prod.snd).Sublist _)) a hw
  have hle : passed peer a w run
      ≤ allowedWithin a w (answers (consumeFrom defaultJoinRateLimit 1) none
          ((callsUnder key run).map Prod.snd)) := by
    rw [← map_filter_serveJoin, allowedWithin, List.filter_map, List.length_map,
      List.filter_filter, passed]
    rw [← List.countP_eq_length_filter, ← List.countP_eq_length_filter]
    refine List.countP_mono_left fun r hr hp ↦ ?_
    obtain ⟨hrkey, hrun⟩ := mem_serveJoin hr
    obtain ⟨hpeer, hpassed⟩ : r.2.1.1.remoteAddress = peer ∧
        (Passed r.2.2 ∧ a ≤ r.2.1.2 ∧ r.2.1.2 ≤ a + 1000 * w) := by simpa using hp
    have hr : r.1 = key := hrkey.trans (hkey _ hrun hpeer)
    simpa [hr] using hpassed
  calc (passed peer a w run : ℚ)
      ≤ (allowedWithin a w (answers (consumeFrom defaultJoinRateLimit 1) none
          ((callsUnder key run).map Prod.snd)) : ℚ) := by exact_mod_cast hle
    _ ≤ 10 + 1 * w := hbound
    _ = 10 + w := by rw [one_mul]

/-! ## Many keys -/

/-- A peer's requests, all sent at time zero. -/
def atOnce (peer : Option String) (headers : List (List String)) : List (Request × ℚ) :=
  headers.map fun header ↦ (⟨peer, header⟩, 0)

/-- The keys of the requests of a run that got past the limiter. -/
def passedKeys (run : List (Request × ℚ)) : List String :=
  ((serveJoin run).filter fun r ↦ Passed r.2.2).map fun r ↦ r.1

variable {headers : List (List String)}

@[simp] theorem sentBy_atOnce : sentBy peer (atOnce peer headers) = headers := by
  have hall : (atOnce peer headers).filter (fun call ↦ call.1.remoteAddress = peer)
      = atOnce peer headers := by
    refine List.filter_eq_self.mpr fun call hcall ↦ ?_
    obtain ⟨header, -, rfl⟩ := List.mem_map.mp hcall
    simp
  rw [sentBy, hall, atOnce, List.map_map]
  exact List.map_id _

theorem pairwise_atOnce : ((atOnce peer headers).map Prod.snd).Pairwise (· ≤ ·) := by
  have hzero : (atOnce peer headers).map Prod.snd = List.replicate headers.length 0 := by
    rw [atOnce, List.map_map]
    exact List.map_const'
  rw [hzero]
  exact List.pairwise_replicate.mpr (Or.inr le_rfl)

theorem passed_atOnce : passed peer 0 0 (atOnce peer headers)
    = (passedKeys (atOnce peer headers)).length := by
  rw [passed, passedKeys, List.length_map, ← List.countP_eq_length_filter,
    ← List.countP_eq_length_filter]
  refine List.countP_congr fun r hr ↦ ?_
  obtain ⟨header, -, heq⟩ := List.mem_map.mp (mem_serveJoin hr).2
  simp [← heq]

theorem count_passedKeys (key : String) : (passedKeys (atOnce peer headers)).count key
    = min 10 ((headers.map (keyOf peer)).count key) := by
  have hunder : (callsUnder key (atOnce peer headers)).map Prod.snd
      = List.replicate ((headers.map (keyOf peer)).count key) 0 := by
    refine List.eq_replicate_iff.mpr ⟨?_, ?_⟩
    · rw [List.length_map, callsUnder, atOnce, List.filter_map, List.length_map, List.count,
        List.countP_map, List.countP_eq_length_filter]
      rfl
    · intro now hnow
      obtain ⟨call, hcall, rfl⟩ := List.mem_map.mp hnow
      obtain ⟨header, -, rfl⟩ := List.mem_map.mp (List.mem_of_mem_filter hcall)
      rfl
  rw [← length_granted_replicate defaultJoinRateLimit (j := 10) rfl 0, ← hunder,
    ← map_filter_serveJoin, List.filter_map, List.length_map, List.filter_filter, passedKeys,
    List.count, List.countP_map, List.countP_filter, List.countP_eq_length_filter]
  exact congrArg List.length (List.filter_congr fun r _ ↦ Bool.and_comm _ _)

/-- More than ten requests under two keys: all at once, more than ten of them pass. -/
theorem ten_lt_passed (hlong : 10 < headers.length) {header header' : List String}
    (hheader : header ∈ headers) (hheader' : header' ∈ headers)
    (hne : keyOf peer header ≠ keyOf peer header') :
    10 < passed peer 0 0 (atOnce peer headers) := by
  rw [passed_atOnce]
  by_cases hten : ∃ key, 10 ≤ (headers.map (keyOf peer)).count key
  · -- one key exhausts its bucket, and another still has a full one
    obtain ⟨key, hten⟩ := hten
    obtain ⟨other, hother, hkey⟩ : ∃ other ∈ headers.map (keyOf peer), other ≠ key := by
      by_cases h : keyOf peer header = key
      · exact ⟨_, List.mem_map_of_mem hheader', fun h' ↦ hne (h.trans h'.symm)⟩
      · exact ⟨_, List.mem_map_of_mem hheader, h⟩
    have hexhausted : (passedKeys (atOnce peer headers)).count key = 10 := by
      rw [count_passedKeys, min_eq_left hten]
    have hone : 0 < (passedKeys (atOnce peer headers)).count other := by
      rw [count_passedKeys]
      exact lt_min (by norm_num) (List.count_pos_iff.mpr hother)
    have hrest : (passedKeys (atOnce peer headers)).count other
        ≤ (passedKeys (atOnce peer headers)).countP fun k ↦ ¬ (k == key) := by
      refine List.countP_mono_left fun k _ hk ↦ ?_
      rw [beq_iff_eq.mp hk]
      simpa using hkey
    have hlength := List.length_eq_countP_add_countP (fun k ↦ k == key)
      (l := passedKeys (atOnce peer headers))
    rw [List.count] at hexhausted
    simp only [decide_not, Bool.decide_eq_true] at hrest hlength
    omega
  · -- no bucket is exhausted, so every request passes
    push Not at hten
    have hperm : (passedKeys (atOnce peer headers)).Perm (headers.map (keyOf peer)) := by
      refine List.perm_iff_count.mpr fun key ↦ ?_
      rw [count_passedKeys, min_eq_right (hten key).le]
    rwa [hperm.length_eq, List.length_map]

/-! ## The bound -/

theorem passed_le_sentBy : passed peer a w run ≤ (sentBy peer run).length := by
  have hrun : (serveJoin run).map (fun r ↦ r.2.1) = run := by
    have h := congrArg (List.map Prod.snd) (map_request_serveJoin run)
    rw [List.map_map, List.map_map] at h
    exact h.trans (List.map_id _)
  rw [passed, sentBy, List.length_map, ← List.countP_eq_length_filter,
    ← List.countP_eq_length_filter]
  conv_rhs => rw [← hrun]
  rw [List.countP_map]
  refine List.countP_mono_left fun r _ hr ↦ ?_
  have hpeer : r.2.1.1.remoteAddress = peer := (of_decide_eq_true hr).1
  simpa using hpeer

theorem exists_key_of_sentBy (hkey : ∀ header ∈ sentBy peer run, ∀ header' ∈ sentBy peer run,
    keyOf peer header = keyOf peer header') :
    ∃ key, ∀ call ∈ run, call.1.remoteAddress = peer → defaultKeyOf call.1 = key := by
  have hsent : ∀ call ∈ run, call.1.remoteAddress = peer →
      call.1.forwardedFor ∈ sentBy peer run := fun call hcall hpeer ↦
    List.mem_map.mpr ⟨call, List.mem_filter.mpr ⟨hcall, by simpa using hpeer⟩, rfl⟩
  by_cases h : ∃ call ∈ run, call.1.remoteAddress = peer
  · obtain ⟨first, hfirst, hpeer⟩ := h
    refine ⟨defaultKeyOf first.1, fun call hcall hcallpeer ↦ ?_⟩
    rw [← keyOf_forwardedFor hpeer, ← keyOf_forwardedFor hcallpeer]
    exact hkey _ (hsent call hcall hcallpeer) _ (hsent first hfirst hpeer)
  · exact ⟨"", fun call hcall hpeer ↦ absurd ⟨call, hcall, hpeer⟩ h⟩

/-- However the peer's requests are timed and whoever else sends some, at most `10 + w` of them
pass in any `w` seconds: this holds exactly for the header sequences under one key, and for those
too short to tell. -/
theorem passed_bound_iff (peer : Option String) (headers : List (List String)) :
    (∀ run : List (Request × ℚ), (run.map Prod.snd).Pairwise (· ≤ ·) → sentBy peer run = headers →
        ∀ a w : ℚ, 0 ≤ w → (passed peer a w run : ℚ) ≤ 10 + w)
      ↔ (∀ header ∈ headers, ∀ header' ∈ headers, keyOf peer header = keyOf peer header')
          ∨ headers.length ≤ 10 := by
  constructor
  · intro hbound
    by_contra hcontra
    push Not at hcontra
    obtain ⟨⟨header, hheader, header', hheader', hne⟩, hlong⟩ := hcontra
    have hmany := ten_lt_passed hlong hheader hheader' hne
    have hfew := hbound (atOnce peer headers) pairwise_atOnce sentBy_atOnce 0 0 le_rfl
    rw [add_zero] at hfew
    exact absurd hmany (not_lt.mpr (by exact_mod_cast hfew))
  · rintro (hkey | hshort) run hmono rfl a w hw
    · obtain ⟨key, hkey⟩ := exists_key_of_sentBy hkey
      exact passed_le hmono hkey a hw
    · have hpassed : (passed peer a w run : ℚ) ≤ 10 := by
        exact_mod_cast passed_le_sentBy.trans hshort
      exact hpassed.trans (le_add_of_nonneg_right hw)

/-- One peer, eleven requests at one moment, each with a header of its own: all eleven pass. -/
theorem eleven_passed :
    ∃ run : List (Request × ℚ), (run.map Prod.snd).Pairwise (· ≤ ·) ∧
      (∀ call ∈ run, call.1.remoteAddress = some "192.0.2.1") ∧
      ¬ (passed (some "192.0.2.1") 0 0 run : ℚ) ≤ 10 + 0 := by
  refine ⟨(List.range 11).map fun n ↦ (⟨some "192.0.2.1", [toString n]⟩, 0), ?_, ?_, ?_⟩
  · decide +kernel
  · decide +kernel
  · decide +kernel

end Synapse.Http
