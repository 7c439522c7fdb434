import Synapse.Client.Throttle
import Synapse.Metering.Spacing
import Synapse.Middleware.RateLimiter

/-!
# A cursor on its way to the server

`useCollaboration.ts` throttles the cursor, the server meters it. Both sides read clocks of their
own, packets take their time, and a volatile one may be lost. The throttle keeps 20 ms between its
emissions, and the bucket gains 1.2 tokens in that time, so that what the bucket has to bear is the
packets that a stall of the connection brings together.
-/

namespace Synapse

open Keyed Metering Transition

/-- The cap of the cursor's cadence, in milliseconds. -/
def cursorEmitMs : ℚ := 20

/-- An invocation of the throttled emit: its time, and the number and the arguments of its call. -/
abbrev CursorPacket := ℚ × ℕ × ℚ × ℚ

/-- A packet met by the handler at a reading of its clock. -/
structure CursorArrival where
  packet : CursorPacket
  now : ℚ
  /-- What `tryConsume` answered. -/
  allowed : Bool

/-- A connection, from the throttle to the rate limiter. -/
structure CursorFeed where
  throttling : Throttling (ℚ × ℚ)
  inFlight : List CursorPacket := []
  limiter : Cells String TokenBucket := TokenBucketRateLimiter.new
  /-- The latest reading of the server's clock. -/
  clock : ℚ
  /-- History: the packets that have arrived. -/
  arrivals : List CursorArrival := []

inductive CursorFeedAction
  | client (a : ThrottleAction (ℚ × ℚ))
  /-- A packet is dropped on its way. -/
  | lose (i : ℕ)
  | arrive (now : ℚ)
  /-- A `draw` of the connection is metered. -/
  | draw (now : ℚ)

namespace CursorFeed

variable (socketId : String) (f : CursorFeed)

/-- The handler meets a packet. -/
def arrive (packet : CursorPacket) (now : ℚ) : CursorFeed :=
  let key := RateLimitedEvent.cursorMove.key socketId
  { f with
    inFlight := f.inFlight.tail
    limiter := f.limiter.write (tryConsume 1) (key, now)
    clock := now
    arrivals := f.arrivals ++ [⟨packet, now, (tryConsume 1 key (f.limiter key) now).1⟩] }

def step : CursorFeedAction → Option CursorFeed
  | .client a => ((Synapse.throttling (ℚ × ℚ) cursorEmitMs).step f.throttling a).map fun t ↦
    { f with
      throttling := t
      inFlight := f.inFlight ++ t.invocations.drop f.throttling.invocations.length }
  | .lose i => some { f with inFlight := f.inFlight.eraseIdx i }
  | .arrive now =>
    if f.clock ≤ now then f.inFlight.head?.map fun packet ↦ f.arrive socketId packet now else none
  | .draw now =>
    if f.clock ≤ now then
      some { f with
        limiter := f.limiter.write (tryConsume 1) (RateLimitedEvent.draw.key socketId, now)
        clock := now }
    else none

/-- A connection is made at any time of the throttle's use. -/
def machine : Machine CursorFeed CursorFeedAction where
  init f := ∃ throttling clock, (Synapse.throttling (ℚ × ℚ) cursorEmitMs).Reaches Machine.anyStep
    throttling ∧ f = { throttling, clock }
  step := step socketId

/-- How much later than it could at best a packet arrives, if that is `lead` after its emission by
the clocks of the two sides. -/
def late (lead : ℚ) (packet : CursorPacket) (now : ℚ) : ℚ := now - lead - packet.1

/-- No packet is more than `jitter` late. -/
def Prompt (lead jitter : ℚ) (f : CursorFeed) : CursorFeedAction → Prop
  | .arrive now => ∀ packet ∈ f.inFlight.head?, 0 ≤ late lead packet now ∧
    late lead packet now ≤ jitter
  | _ => True

instance (lead jitter : ℚ) (f : CursorFeed) :
    (a : CursorFeedAction) → Decidable (Prompt lead jitter f a)
  | .arrive now => inferInstanceAs (Decidable (∀ packet ∈ f.inFlight.head?,
      0 ≤ late lead packet now ∧ late lead packet now ≤ jitter))
  | .client _ | .lose _ | .draw _ => isTrue trivial

end CursorFeed

/-! ## What is in flight -/

namespace Throttling

variable {α : Type*} {intervalMs : ℚ} {s t : Throttling α} {a : ThrottleAction α}

theorem prefix_of_step (hs : (throttling α intervalMs).step s a = some t) :
    s.invocations <+: t.invocations := by
  cases a with
  | call args now later =>
    obtain ⟨-, ht⟩ := Option.ite_none_right_eq_some.mp hs
    cases ht
    exact List.prefix_append _ _
  | fire now =>
    simp only [throttling] at hs
    split at hs
    · obtain ⟨-, ht⟩ := Option.ite_none_right_eq_some.mp hs
      cases ht
      exact List.prefix_append _ _
    · cases hs
  | cancel =>
    cases hs
    exact List.prefix_rfl

theorem Sound.pairwise (h : s.Sound intervalMs) (hinterval : 0 ≤ intervalMs) :
    s.invocations.Pairwise fun i j ↦ i.1 + intervalMs ≤ j.1 := by
  let Apart (i j : ℚ × ℕ × α) : Prop := i.1 + intervalMs ≤ j.1
  have htrans : Trans Apart Apart Apart := ⟨fun {i j k} hij hjk ↦ by
    change i.1 + intervalMs ≤ k.1
    have hij : i.1 + intervalMs ≤ j.1 := hij
    have hjk : j.1 + intervalMs ≤ k.1 := hjk
    linarith⟩
  exact (List.isChain_iff_pairwise (R := Apart)).mp h.apart

end Throttling

/-! ## The invariant -/

namespace CursorFeed

variable {socketId : String} {lead jitter : ℚ} {f g : CursorFeed} {a : CursorFeedAction}

/-- The packet that has arrived last, and those behind it. -/
def recent (f : CursorFeed) : List CursorPacket :=
  (f.arrivals.getLast?.map CursorArrival.packet).toList ++ f.inFlight

/-- Packets keep the distance of their emissions, and the bucket is ready for the next one. -/
structure Sound (socketId : String) (lead jitter : ℚ) (f : CursorFeed) : Prop where
  throttling : f.throttling.Sound cursorEmitMs
  recent : f.recent.Sublist f.throttling.invocations
  fresh : f.arrivals.getLast? = none → f.limiter (RateLimitedEvent.cursorMove.key socketId) = none
  ready : ∀ last ∈ f.arrivals.getLast?, last.now ≤ f.clock ∧
    ∃ m : Bucket cursorMoveBucket.metering,
      f.limiter (RateLimitedEvent.cursorMove.key socketId) = some (.ofBucket m) ∧
      1000 * m.last = last.now ∧
      m.Ready (cursorEmitMs / 1000) (jitter / 1000) (late lead last.packet last.now / 1000)
  allowed : ∀ arrival ∈ f.arrivals, arrival.allowed = true

theorem Sound.start {throttling : Throttling (ℚ × ℚ)} {clock : ℚ}
    (h : throttling.Sound cursorEmitMs) : Sound socketId lead jitter { throttling, clock } where
  throttling := h
  recent := List.nil_sublist _
  fresh _ := rfl
  ready _ hlast := nomatch hlast
  allowed _ harrival := nomatch harrival

/-- The bucket keeps up with the throttle over a connection that stalls for `jitter` at most. -/
theorem pace (hjitter : jitter ≤ 1180) :
    Pace cursorMoveBucket.metering (cursorEmitMs / 1000) (jitter / 1000) where
  interval_pos := by norm_num [cursorEmitMs]
  one_le := by norm_num [cursorEmitMs, BucketConfig.metering, cursorMoveBucket]
  jitter_le := by
    have hpace : ((60 : ℚ) - 1) * (20 / 1000) = 1180 / 1000 := by norm_num
    change jitter / 1000 ≤ (60 - 1) * (20 / 1000)
    rw [hpace]
    exact div_le_div_of_nonneg_right hjitter (by norm_num)

theorem Sound.bucket (h : f.Sound socketId lead jitter) {packet : CursorPacket} {now : ℚ}
    (hpacket : packet ∈ f.inFlight.head?) (hclock : f.clock ≤ now)
    (hlate : late lead packet now ≤ jitter) :
    ∃ (m : Bucket cursorMoveBucket.metering) (before : ℚ),
      (f.limiter (RateLimitedEvent.cursorMove.key socketId)).getD
        (createBucket cursorMoveBucket now) = .ofBucket m ∧
      m.last ≤ now / 1000 ∧
      m.Ready (cursorEmitMs / 1000) (jitter / 1000) before ∧
      cursorEmitMs / 1000 + late lead packet now / 1000 - before ≤ now / 1000 - m.last := by
  cases hlast : f.arrivals.getLast? with
  | none =>
    refine ⟨Bucket.full _ (now / 1000), late lead packet now / 1000 + cursorEmitMs / 1000,
      ?_, le_rfl, ?_, ?_⟩
    · rw [h.fresh hlast, Option.getD_none, createBucket_eq_ofBucket]
    · exact Bucket.ready_full (by norm_num [cursorEmitMs])
        (div_le_div_of_nonneg_right hlate (by norm_num)) _
    · change _ ≤ now / 1000 - now / 1000
      linarith
  | some last =>
    obtain ⟨hle, m, hm, hmlast, hready⟩ := h.ready last hlast
    -- the packet was emitted an interval after the last one
    have hapart : last.packet.1 + cursorEmitMs ≤ packet.1 := by
      have hpairwise := (h.throttling.pairwise (by norm_num [cursorEmitMs])).sublist h.recent
      rw [CursorFeed.recent, hlast] at hpairwise
      exact (List.pairwise_cons.mp hpairwise).1 packet (List.mem_of_mem_head? hpacket)
    refine ⟨m, _, by rw [hm, Option.getD_some], ?_, hready, ?_⟩
    · rw [le_div_iff₀ (by norm_num), mul_comm, hmlast]
      exact hle.trans hclock
    · rw [late, late]
      linarith

/-- A packet that is not too late is let through. -/
theorem Sound.arrive (h : f.Sound socketId lead jitter) (hjitter : jitter ≤ 1180)
    {packet : CursorPacket} {now : ℚ} (hpacket : packet ∈ f.inFlight.head?)
    (hclock : f.clock ≤ now) (hearly : 0 ≤ late lead packet now)
    (hlate : late lead packet now ≤ jitter) :
    (f.arrive socketId packet now).Sound socketId lead jitter := by
  obtain ⟨m, before, hm, hmlast, hready, hspaced⟩ := h.bucket hpacket hclock hlate
  have hnow : (charge now).time = now / 1000 := rfl
  obtain ⟨hgranted, hready'⟩ := hready.consume (c := charge now) (pace hjitter) rfl hmlast hspaced
    (div_nonneg hearly (by norm_num)) (div_le_div_of_nonneg_right hlate (by norm_num))
  have htry : tryConsume 1 (RateLimitedEvent.cursorMove.key socketId)
      (f.limiter (RateLimitedEvent.cursorMove.key socketId)) now
        = (true, some (.ofBucket (m.consume (charge now)).2)) := by
    have hconsume : consume (TokenBucket.ofBucket m) now 1
        = (true, .ofBucket (m.consume (charge now)).2) := by
      rw [consume_ofBucket, hgranted]
    have hconfig : RateLimitedEvent.cursorMove.config = cursorMoveBucket := rfl
    rw [RateLimitedEvent.tryConsume_key, hconfig, consumeFrom, hm, hconsume]
  obtain ⟨rest, hrest⟩ : ∃ rest, f.inFlight = packet :: rest := List.head?_eq_some_iff.mp hpacket
  refine ⟨h.throttling, ?_, fun hnone ↦ ?_, fun last hlast ↦ ?_, fun arrival harrival ↦ ?_⟩
  · have hrecent : (f.arrive socketId packet now).recent = f.inFlight := by
      rw [CursorFeed.recent, CursorFeed.arrive, List.getLast?_concat, hrest]
      rfl
    rw [hrecent]
    exact (List.sublist_append_right _ _).trans h.recent
  · rw [CursorFeed.arrive, List.getLast?_concat] at hnone
    cases hnone
  · rw [CursorFeed.arrive, List.getLast?_concat, Option.mem_some_iff] at hlast
    subst hlast
    refine ⟨le_rfl, _, ?_, ?_, hready'⟩
    · have hself : f.limiter.write (tryConsume 1) (RateLimitedEvent.cursorMove.key socketId, now)
          (RateLimitedEvent.cursorMove.key socketId)
            = (tryConsume 1 (RateLimitedEvent.cursorMove.key socketId)
                (f.limiter (RateLimitedEvent.cursorMove.key socketId)) now).2 :=
        Cells.write_self _
      exact hself.trans (congrArg Prod.snd htry)
    · rw [Bucket.consume_last, hnow]
      exact mul_div_cancel₀ _ (by norm_num)
  · rcases List.mem_append.mp harrival with harrival | harrival
    · exact h.allowed arrival harrival
    · rw [List.mem_singleton.mp harrival, htry]

theorem Sound.step (h : f.Sound socketId lead jitter) (hjitter : jitter ≤ 1180)
    (hprompt : Prompt lead jitter f a) (hs : f.step socketId a = some g) :
    g.Sound socketId lead jitter := by
  cases a with
  | client b =>
    obtain ⟨t, ht, rfl⟩ := Option.map_eq_some_iff.mp hs
    obtain ⟨new, hnew⟩ := Throttling.prefix_of_step ht
    have hdrop : t.invocations.drop f.throttling.invocations.length = new := by
      rw [← hnew, List.drop_left]
    refine ⟨h.throttling.step ht, ?_, h.fresh, h.ready, h.allowed⟩
    rw [hdrop, ← hnew, CursorFeed.recent, ← List.append_assoc]
    exact h.recent.append (List.Sublist.refl new)
  | lose i =>
    cases hs
    exact ⟨h.throttling, ((List.Sublist.refl _).append (List.eraseIdx_sublist _ _)).trans h.recent,
      h.fresh, h.ready, h.allowed⟩
  | arrive now =>
    obtain ⟨hclock, hs⟩ := Option.ite_none_right_eq_some.mp hs
    obtain ⟨packet, hpacket, rfl⟩ := Option.map_eq_some_iff.mp hs
    obtain ⟨hearly, hlate⟩ := hprompt packet hpacket
    exact h.arrive hjitter hpacket hclock hearly hlate
  | draw now =>
    obtain ⟨hclock, hs⟩ := Option.ite_none_right_eq_some.mp hs
    cases hs
    -- the bucket of the draws is another one
    have hkey : RateLimitedEvent.draw.key socketId ≠ RateLimitedEvent.cursorMove.key socketId := by
      intro heq
      have hname := congrArg eventFromKey heq
      rw [RateLimitedEvent.eventFromKey_key, RateLimitedEvent.eventFromKey_key] at hname
      exact absurd hname (by decide)
    have hother : f.limiter.write (tryConsume 1) (RateLimitedEvent.draw.key socketId, now)
        (RateLimitedEvent.cursorMove.key socketId)
          = f.limiter (RateLimitedEvent.cursorMove.key socketId) := Cells.write_of_ne hkey
    refine ⟨h.throttling, h.recent, fun hnone ↦ hother.trans (h.fresh hnone), fun last hlast ↦ ?_,
      h.allowed⟩
    obtain ⟨hle, m, hm, hmlast, hready⟩ := h.ready last hlast
    exact ⟨hle.trans hclock, m, hother.trans hm, hmlast, hready⟩

/-- **The limiter never drops a throttled cursor.** Whatever the pointer does, and whichever packets
are lost, every `cursor-move` that arrives is let through, as long as the delays of the connection
differ by no more than 1180 ms. -/
theorem allowed_of_prompt (hjitter : jitter ≤ 1180)
    (h : (machine socketId).Reaches (Prompt lead jitter) f) :
    ∀ arrival ∈ f.arrivals, arrival.allowed = true := by
  refine (h.invariant ?_ fun u a v hu hprompt hs ↦ hu.step hjitter hprompt hs :
    f.Sound socketId lead jitter).allowed
  rintro _ ⟨throttling, clock, hreaches, rfl⟩
  exact Sound.start (Throttling.sound_of_reaches hreaches)

/-- No longer stall is borne: of 61 packets that arrive together, the first 1200 ms late, the last
is dropped. -/
example : (((machine "a").guarded (Prompt 0 1200)).exec
    { throttling := { clock := 1000 }, clock := 0 }
    ((List.range 61).map (fun k ↦ .client (.call (0, 0) (1000 + 20 * k) (1000 + 20 * k))) ++
      List.replicate 61 (.arrive 2200))).any
    (fun f ↦ f.arrivals.map CursorArrival.allowed = List.replicate 60 true ++ [false]) := by
  decide +kernel

/-- The connection stalls, and the packets of a second arrive at once. -/
def stalledRun : List CursorFeedAction :=
  [.client (.call (0, 0) 1000 1000), .client (.call (3, 4) 1005 1005), .client (.fire 1020),
    .client (.call (6, 8) 1030 1030), .client (.fire 1040), .lose 1, .draw 2100, .arrive 2150,
    .client (.call (9, 9) 2000 2001), .arrive 2150, .arrive 2150]

theorem allowed_of_prompt_stalledRun : ∃ f, (machine "a").exec
      { throttling := { clock := 1000 }, clock := 0 } stalledRun = some f ∧
    f.arrivals.length = 3 ∧ ∀ arrival ∈ f.arrivals, arrival.allowed = true := by
  have hrun : (((machine "a").guarded (Prompt 50 1180)).exec
      { throttling := { clock := 1000 }, clock := 0 } stalledRun).any
        (fun f ↦ decide (f.arrivals.length = 3)) = true := by decide +kernel
  obtain ⟨f, hf, hsteps, hp⟩ := Machine.exists_of_guarded_any _ _ hrun
  have hreaches : (machine "a").Reaches (Prompt 50 1180) f :=
    ⟨_, ⟨_, 0, .init ⟨1000, rfl⟩, rfl⟩, hsteps⟩
  exact ⟨f, hf, of_decide_eq_true hp, allowed_of_prompt le_rfl hreaches⟩

end CursorFeed

end Synapse
