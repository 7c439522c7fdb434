import Synapse.Floating.Format
import Synapse.Presence.Index
import Synapse.Transition.Machine

/-!
# Sweeping every room

`PresenceService.sweep` lists the rooms and then sweeps one after the other, and awaits Redis in
between, so that the scripts of other calls, also those of other instances, run at any time. A room
that appears meanwhile is not swept, and a cutoff is older than its script.

Still, nobody is overlooked: a member that was there when the rooms were listed is in a room that is
swept later, and one that was not has joined since (`Sweep.Sound.covered`).
-/

namespace Synapse.Presence

open Floating Keyed Transition

/-! ## `presenceService.ts` -/

/-- Hard ceiling on the presence TTL. -/
def maxPresenceTtlSeconds : ℚ := 30

/-- Default per-member presence TTL. -/
def defaultPresenceTtlSeconds : ℚ := 30

/-- Clamps a requested TTL to the valid range. -/
def resolveTtlSeconds : Option (Value binary64) → ℚ
  | some (.finite requested) =>
    if requested.val ≤ 0 then defaultPresenceTtlSeconds
    else min requested.val maxPresenceTtlSeconds
  | _ => defaultPresenceTtlSeconds

theorem resolveTtlSeconds_mem (requested : Option (Value binary64)) :
    0 < resolveTtlSeconds requested ∧ resolveTtlSeconds requested ≤ 30 := by
  have hdefault : 0 < defaultPresenceTtlSeconds ∧ defaultPresenceTtlSeconds ≤ 30 := by
    norm_num [defaultPresenceTtlSeconds]
  unfold resolveTtlSeconds
  split
  · split_ifs with h
    · exact hdefault
    · exact ⟨lt_min (not_le.mp h) (by norm_num [maxPresenceTtlSeconds]), min_le_right _ _⟩
  · exact hdefault

/-- A call of `sweep`. -/
structure Sweep where
  /-- The rooms that are still to be swept. -/
  roomIds : List String
  /-- The cutoff that has been sent to the script for the first of them. -/
  cutoff : Option ℚ := none
  results : List PresenceSweepResult := []
  /-- History: what was found in every room that has been swept. -/
  swept : List PresenceSweepResult := []
  /-- History: the time at which the rooms were listed. -/
  startNow : ℕ
  /-- History: how many scripts had run then. -/
  startedAt : ℕ

/-- The keys, and the latest sweep of an instance with its clock. -/
structure Sweeping where
  keys : Keyspace := .empty
  now : ℕ
  /-- History: the scripts that have run. -/
  calls : List Call := []
  sweep : Option Sweep := none

inductive SweepAction
  /-- A script of any other call. -/
  | call (c : Call)
  | tick (t : ℕ)
  /-- `SMEMBERS` replies, in any order. -/
  | smembers (roomIds : List String)
  /-- The next room: the clock is read, and the script is sent. -/
  | sweepRoom
  /-- The script runs, and its reply is parsed, which gives what the script did
  (`Keyspace.sweepsExactly`). -/
  | reply

/-- The rooms have been listed. -/
def Sweep.start (roomIds : List String) (s : Sweeping) : Sweep where
  roomIds
  startNow := s.now
  startedAt := s.calls.length

/-- The result of a room, and the loop goes on. -/
def Sweep.push (sw : Sweep) (result : PresenceSweepResult) : Sweep :=
  { sw with
    roomIds := sw.roomIds.tail
    cutoff := none
    results := if 0 < result.expired.length then sw.results ++ [result] else sw.results
    swept := sw.swept ++ [result] }

namespace Sweeping

variable (s : Sweeping)

/-- The script of the sweep runs. -/
def reply (sw : Sweep) (roomId : String) (cutoff : ℚ) : Sweeping :=
  let r := s.keys.sweepRoom roomId cutoff
  { s with
    keys := r.2
    calls := s.calls ++ [.sweepRoom roomId cutoff]
    sweep := some (sw.push r.1) }

def step (ttlSeconds : ℚ) : SweepAction → Option Sweeping
  | .call c => some { s with keys := s.keys.apply c, calls := s.calls ++ [c] }
  | .tick t => if s.now ≤ t then some { s with now := t } else none
  | .smembers roomIds =>
    if (∀ sw ∈ s.sweep, sw.roomIds = []) ∧ roomIds.Nodup ∧ roomIds.toFinset = s.keys.rooms then
      some { s with sweep := some (.start roomIds s) }
    else none
  | .sweepRoom => s.sweep.bind fun sw ↦
    if sw.roomIds ≠ [] ∧ sw.cutoff = none then
      some { s with sweep := some { sw with cutoff := some (s.now - ttlSeconds * 1000) } }
    else none
  | .reply => s.sweep.bind fun sw ↦ sw.roomIds.head?.bind fun roomId ↦ sw.cutoff.map fun cutoff ↦
    s.reply sw roomId cutoff

/-- The sweeps of an instance whose TTL is as requested. -/
def machine (requested : Option (Value binary64)) :
    Machine Sweeping SweepAction where
  init s := ∃ now, s = { now }
  step s := s.step (resolveTtlSeconds requested)

end Sweeping

/-! ## What the scripts so far say -/

/-- A member has given a sign of life after `since`, or by a script after the first `startedAt`. -/
def Fresh (since : ℚ) (startedAt : ℕ) (calls : List Call) (r socketId : String) : Prop :=
  ∃ (n : ℕ) (c : Call) (t : ℕ), calls[n]? = some c ∧ Call.signOf r socketId c = some t ∧
    (since < t ∨ startedAt ≤ n)

/-- The cutoff is the time-to-live before a reading of the clock, made after the rooms were
listed. -/
structure ReadAt (startNow : ℕ) (ttlSeconds : ℚ) (now : ℕ) (cutoff : ℚ) (read : ℕ) : Prop where
  startNow_le : startNow ≤ read
  le_now : read ≤ now
  cutoff_eq : cutoff = read - ttlSeconds * 1000

/-- What `result` says of its room is what script `n` did there: it has removed the members whose
latest sign of life was the time-to-live or more before the reading. -/
structure Reported (startNow startedAt : ℕ) (ttlSeconds : ℚ) (calls : List Call) (now : ℕ)
    (result : PresenceSweepResult) (n read : ℕ) : Prop where
  call : ∃ cutoff, calls[n]? = some (.sweepRoom result.roomId cutoff) ∧
    ReadAt startNow ttlSeconds now cutoff read
  startedAt_le : startedAt ≤ n
  expired : ∀ id, id ∈ result.expired ↔
    ((Keyspace.after (calls.take n)).room result.roomId).Present id ∧
      ∃ t, latest (calls.take n) result.roomId id = some t ∧ t + ttlSeconds * 1000 ≤ read
  once : result.expired.Nodup
  members : result.members
    = ((Keyspace.after (calls.take (n + 1))).room result.roomId).users.rows

variable {requested : Option (Value binary64)} {ttlSeconds cutoff : ℚ}
  {calls : List Call} {c : Call} {r id : String} {now now' n t startNow startedAt read : ℕ}
  {sw : Sweep}
  {result : PresenceSweepResult} {s s' : Sweeping} {a : SweepAction}

theorem Call.exists_signOf_of_latest (h : latest calls r id = some t) :
    ∃ (n : ℕ) (c : Call), calls[n]? = some c ∧ Call.signOf r id c = some t := by
  obtain ⟨c, hc, hsign⟩ := List.mem_filterMap.mp (List.mem_of_getLast? h)
  obtain ⟨n, hn⟩ := List.mem_iff_getElem?.mp hc
  exact ⟨n, c, hn, hsign⟩

/-- Whoever is present after a script was so before, or the script is a sign of life. -/
theorem Keyspace.present_of_apply {k : Keyspace} (h : ((k.apply c).room r).Present id) :
    (k.room r).Present id ∨ ∃ t, Call.signOf r id c = some t := by
  cases c with
  | allocateColor roomId socketId => exact Or.inl (Keyspace.present_allocateColor.mp h)
  | join roomId user now =>
    rcases Keyspace.present_join.mp h with ⟨rfl, rfl⟩ | h
    · exact Or.inr ⟨now, by simp [Call.signOf, Call.roomId, Call.signBy, Call.sign]⟩
    · exact Or.inl h
  | leave roomId socketId => exact Or.inl (Keyspace.present_leave.mp h).1
  | updateCursor roomId socketId x y now => exact Or.inl (Keyspace.present_updateCursor.mp h)
  | heartbeat roomId socketId now => exact Or.inl (Keyspace.present_heartbeat.mp h)
  | sweepRoom roomId cutoff => exact Or.inl (Keyspace.present_of_sweepRoom h)

theorem Fresh.concat {since : ℚ} (h : Fresh since startedAt calls r id) (c : Call) :
    Fresh since startedAt (calls ++ [c]) r id := by
  obtain ⟨n, c', t, hn, hsign, hfresh⟩ := h
  refine ⟨n, c', t, ?_, hsign, hfresh⟩
  rw [List.getElem?_append_left (List.getElem?_eq_some_iff.mp hn).1]
  exact hn

theorem ReadAt.mono (h : ReadAt startNow ttlSeconds now cutoff read) (hnow : now ≤ now') :
    ReadAt startNow ttlSeconds now' cutoff read := { h with le_now := h.le_now.trans hnow }

theorem ReadAt.since_le (h : ReadAt startNow ttlSeconds now cutoff read) :
    startNow - ttlSeconds * 1000 ≤ cutoff := by
  rw [h.cutoff_eq]
  exact sub_le_sub_right (Nat.cast_le.mpr h.startNow_le) _

theorem Reported.concat (h : Reported startNow startedAt ttlSeconds calls now result n read)
    (c : Call) : Reported startNow startedAt ttlSeconds (calls ++ [c]) now result n read := by
  obtain ⟨cutoff, hcall, hread⟩ := h.call
  have hlt : n < calls.length := (List.getElem?_eq_some_iff.mp hcall).1
  have htake : (calls ++ [c]).take n = calls.take n := List.take_append_of_le_length hlt.le
  have htake' : (calls ++ [c]).take (n + 1) = calls.take (n + 1) :=
    List.take_append_of_le_length hlt
  refine ⟨⟨cutoff, ?_, hread⟩, h.startedAt_le, ?_, h.once, ?_⟩
  · rw [List.getElem?_append_left hlt]
    exact hcall
  · rw [htake]
    exact h.expired
  · rw [htake']
    exact h.members

theorem Reported.mono (h : Reported startNow startedAt ttlSeconds calls now result n read)
    (hnow : now ≤ now') : Reported startNow startedAt ttlSeconds calls now' result n read :=
  let ⟨cutoff, hcall, hread⟩ := h.call
  { h with call := ⟨cutoff, hcall, hread.mono hnow⟩ }

theorem reported_sweepRoom (hstarted : startedAt ≤ calls.length)
    (hread : ReadAt startNow ttlSeconds now cutoff read) :
    Reported startNow startedAt ttlSeconds (calls ++ [.sweepRoom r cutoff]) now
      ((Keyspace.after calls).sweepRoom r cutoff).1 calls.length read := by
  have hindexed := (indexed_after calls).2 r
  have hexpired : ((Keyspace.after calls).sweepRoom r cutoff).1.expired
      = ((Keyspace.after calls).room r).stale cutoff := rfl
  have hroom : ((Keyspace.after calls).sweepRoom r cutoff).1.roomId = r := rfl
  have htake : (calls ++ [Call.sweepRoom r cutoff]).take (calls.length + 1)
      = calls ++ [.sweepRoom r cutoff] := List.take_of_length_le (by simp)
  refine ⟨⟨cutoff, List.getElem?_concat_length, hread⟩, hstarted, fun id ↦ ?_,
    RoomKeys.nodup_stale, ?_⟩
  · rw [hroom, List.take_left, hexpired, RoomKeys.mem_stale, hindexed.listed, hread.cutoff_eq]
    simp only [le_sub_iff_add_le]
    constructor
    · rintro ⟨m, hm, rfl, hle⟩
      exact ⟨⟨m, hm, rfl⟩, m.score, hindexed.scored m hm, hle⟩
    · rintro ⟨⟨m, hm, rfl⟩, t, ht, hle⟩
      rw [hindexed.scored m hm, Option.some_inj] at ht
      exact ⟨m, hm, rfl, ht ▸ hle⟩
  · rw [hroom, htake, Keyspace.after_concat, Keyspace.room_apply, Call.roomId, if_pos rfl]
    exact congrArg (fun room ↦ room.users.rows) Keyspace.room_setRoom_self

/-- Whoever is left by the script of a sweep has given a sign of life after its cutoff. -/
theorem fresh_of_survives {since : ℚ} (hsince : since ≤ cutoff)
    (h : (((Keyspace.after calls).apply (.sweepRoom r cutoff)).room r).Present id) :
    Fresh since startedAt calls r id := by
  have hindexed := (indexed_after calls).2 r
  rw [Keyspace.room_apply, Call.roomId, if_pos rfl] at h
  obtain ⟨hpresent, hkept⟩ := RoomKeys.present_reap.mp h
  obtain ⟨m, hm, rfl⟩ := (hindexed.listed id).mp hpresent
  obtain ⟨n, c, hn, hsign⟩ := Call.exists_signOf_of_latest (hindexed.scored m hm)
  have hlt : cutoff < m.score := by
    by_contra hle
    exact hkept (RoomKeys.mem_stale.mpr ⟨m, hm, rfl, not_lt.mp hle⟩)
  exact ⟨n, c, m.score, hn, hsign, Or.inl (hsince.trans_lt hlt)⟩

namespace Sweep

/-- A sweep that goes on: whoever is present is in a room still to be swept, or has given a sign of
life, and what was found is what the scripts did. -/
structure Sound (ttlSeconds : ℚ) (calls : List Call) (now : ℕ) (sw : Sweep) : Prop where
  startNow : sw.startNow ≤ now
  startedAt : sw.startedAt ≤ calls.length
  cutoff : ∀ cutoff ∈ sw.cutoff, ∃ read, ReadAt sw.startNow ttlSeconds now cutoff read
  covered : ∀ r id, ((Keyspace.after calls).room r).Present id →
    r ∈ sw.roomIds ∨ Fresh (sw.startNow - ttlSeconds * 1000) sw.startedAt calls r id
  rooms : (sw.swept.map PresenceSweepResult.roomId ++ sw.roomIds).Nodup ∧
    ∀ r, r ∈ sw.swept.map PresenceSweepResult.roomId ++ sw.roomIds ↔
      r ∈ (Keyspace.after (calls.take sw.startedAt)).rooms
  reported : ∀ result ∈ sw.swept, ∃ n read,
    Reported sw.startNow sw.startedAt ttlSeconds calls now result n read
  results : sw.results = sw.swept.filter fun result ↦ 0 < result.expired.length

theorem Sound.tick (h : sw.Sound ttlSeconds calls now) (hnow : now ≤ now') :
    sw.Sound ttlSeconds calls now' where
  startNow := h.startNow.trans hnow
  startedAt := h.startedAt
  cutoff c hc := (h.cutoff c hc).imp fun _ hread ↦ hread.mono hnow
  covered := h.covered
  rooms := h.rooms
  reported result hresult :=
    let ⟨n, read, hn⟩ := h.reported result hresult
    ⟨n, read, hn.mono hnow⟩
  results := h.results

theorem Sound.call (h : sw.Sound ttlSeconds calls now) (c : Call) :
    sw.Sound ttlSeconds (calls ++ [c]) now where
  startNow := h.startNow
  startedAt := h.startedAt.trans (by simp)
  cutoff := h.cutoff
  covered r id hpresent := by
    rw [Keyspace.after_concat] at hpresent
    rcases Keyspace.present_of_apply hpresent with hbefore | ⟨t, hsign⟩
    · exact (h.covered r id hbefore).imp_right fun hfresh ↦ hfresh.concat c
    · exact Or.inr ⟨calls.length, c, t, List.getElem?_concat_length, hsign, Or.inr h.startedAt⟩
  rooms := by
    rw [List.take_append_of_le_length h.startedAt]
    exact h.rooms
  reported result hresult :=
    let ⟨n, read, hn⟩ := h.reported result hresult
    ⟨n, read, hn.concat c⟩
  results := h.results

/-- The rooms are listed: whoever is present is in one of them. -/
theorem Sound.start {roomIds : List String} (hkeys : s.keys = Keyspace.after s.calls)
    (hnodup : roomIds.Nodup) (hrooms : roomIds.toFinset = s.keys.rooms) :
    (Sweep.start roomIds s).Sound ttlSeconds s.calls s.now where
  startNow := le_rfl
  startedAt := le_rfl
  cutoff _ hc := nomatch hc
  covered r id hpresent := by
    have hregistered := (indexed_after s.calls).1 r
    refine Or.inl (List.mem_toFinset.mp ?_)
    rw [Sweep.start, hrooms, hkeys, hregistered, RoomKeys.users_ne_nil]
    exact ⟨id, hpresent⟩
  rooms := by
    refine ⟨hnodup, fun r ↦ ?_⟩
    rw [Sweep.start, List.map_nil, List.nil_append, List.take_length, ← hkeys, ← hrooms,
      List.mem_toFinset]
  reported _ hresult := nomatch hresult
  results := rfl

theorem Sound.sweepRoom (h : sw.Sound ttlSeconds calls now) :
    { sw with cutoff := some (now - ttlSeconds * 1000) }.Sound ttlSeconds calls now :=
  { h with
    cutoff := fun c hc ↦ by
      cases hc
      exact ⟨now, h.startNow, le_rfl, rfl⟩ }

/-- **A room is swept**: whoever is left in it has given a sign of life after the cutoff. -/
theorem Sound.reply (h : sw.Sound ttlSeconds calls now) (hroom : sw.roomIds.head? = some r)
    (hcutoff : sw.cutoff = some cutoff) :
    (sw.push ((Keyspace.after calls).sweepRoom r cutoff).1).Sound ttlSeconds
      (calls ++ [.sweepRoom r cutoff]) now := by
  obtain ⟨rest, hrest⟩ := List.head?_eq_some_iff.mp hroom
  have hcall := h.call (.sweepRoom r cutoff)
  obtain ⟨read, hread⟩ := h.cutoff cutoff hcutoff
  have hsplit : (sw.push ((Keyspace.after calls).sweepRoom r cutoff).1).swept.map
        PresenceSweepResult.roomId ++ sw.roomIds.tail
      = sw.swept.map PresenceSweepResult.roomId ++ sw.roomIds := by
    rw [push, List.map_append, hrest, List.append_assoc]
    rfl
  refine ⟨h.startNow, hcall.startedAt, fun _ hc ↦ (nomatch hc), fun r' id hpresent ↦ ?_, ?_,
    fun result hresult ↦ ?_, ?_⟩
  · by_cases hr : r' = r
    · subst hr
      rw [Keyspace.after_concat] at hpresent
      exact Or.inr ((fresh_of_survives hread.since_le hpresent).concat _)
    · refine (hcall.covered r' id hpresent).imp_left fun hmem ↦ ?_
      rw [hrest] at hmem
      rw [push, hrest]
      exact (List.mem_cons.mp hmem).resolve_left hr
  · have hrooms := hcall.rooms
    rw [← hsplit] at hrooms
    exact hrooms
  · rcases List.mem_append.mp hresult with hresult | hresult
    · exact hcall.reported result hresult
    · rw [List.mem_singleton.mp hresult]
      exact ⟨_, _, reported_sweepRoom h.startedAt hread⟩
  · rw [push, List.filter_append, ← h.results]
    split_ifs with hlength
    · rw [List.filter_cons_of_pos (by simpa using hlength), List.filter_nil]
    · rw [List.filter_cons_of_neg (by simpa using hlength), List.filter_nil, List.append_nil]

end Sweep

/-! ## Every run -/

namespace Sweeping

/-- The keys are what the scripts have made of them, and the sweep is sound. -/
structure Sound (ttlSeconds : ℚ) (s : Sweeping) : Prop where
  keys : s.keys = Keyspace.after s.calls
  sweep : ∀ sw ∈ s.sweep, sw.Sound ttlSeconds s.calls s.now

theorem Sound.step (h : s.Sound ttlSeconds) (hs : s.step ttlSeconds a = some s') :
    s'.Sound ttlSeconds := by
  cases a with
  | call c =>
    cases hs
    refine ⟨?_, fun sw hsw ↦ (h.sweep sw hsw).call c⟩
    rw [Keyspace.after_concat, h.keys]
  | tick t =>
    obtain ⟨ht, hs⟩ := Option.ite_none_right_eq_some.mp hs
    cases hs
    exact ⟨h.keys, fun sw hsw ↦ (h.sweep sw hsw).tick ht⟩
  | smembers roomIds =>
    obtain ⟨⟨-, hnodup, hrooms⟩, hs⟩ := Option.ite_none_right_eq_some.mp hs
    cases hs
    refine ⟨h.keys, fun sw hsw ↦ ?_⟩
    cases hsw
    exact Sweep.Sound.start h.keys hnodup hrooms
  | sweepRoom =>
    obtain ⟨sw, hsw, hs⟩ := Option.bind_eq_some_iff.mp hs
    obtain ⟨-, hs⟩ := Option.ite_none_right_eq_some.mp hs
    cases hs
    refine ⟨h.keys, fun sw' hsw' ↦ ?_⟩
    cases hsw'
    exact (h.sweep sw hsw).sweepRoom
  | reply =>
    obtain ⟨sw, hsw, hs⟩ := Option.bind_eq_some_iff.mp hs
    obtain ⟨roomId, hroom, hs⟩ := Option.bind_eq_some_iff.mp hs
    obtain ⟨cutoff, hcutoff, rfl⟩ := Option.map_eq_some_iff.mp hs
    refine ⟨?_, fun sw' hsw' ↦ ?_⟩
    · rw [Sweeping.reply, Keyspace.after_concat, ← h.keys]
      rfl
    · cases hsw'
      rw [h.keys]
      exact (h.sweep sw hsw).reply hroom hcutoff

theorem sound_of_reaches (h : (machine requested).Reaches Machine.anyStep s) :
    s.Sound (resolveTtlSeconds requested) := by
  refine h.invariant ?_ fun _ _ _ hu _ hs ↦ hu.step hs
  rintro _ ⟨now, rfl⟩
  exact ⟨rfl, fun _ hsw ↦ nomatch hsw⟩

/-- **Nobody is overlooked.** Once a sweep is through, everybody who is present anywhere has given a
sign of life less than 30 seconds before it listed the rooms, or since, whatever other calls came in
between. -/
theorem fresh_of_done (h : (machine requested).Reaches Machine.anyStep s)
    (hsweep : s.sweep = some sw) (hdone : sw.roomIds = []) (hid : (s.keys.room r).Present id) :
    Fresh (sw.startNow - 30000) sw.startedAt s.calls r id := by
  have hs := sound_of_reaches h
  rw [hs.keys] at hid
  rcases (hs.sweep sw hsweep).covered r id hid with hmem | ⟨n, c, t, hn, hsign, hfresh⟩
  · rw [hdone] at hmem
    exact absurd hmem List.not_mem_nil
  · refine ⟨n, c, t, hn, hsign, hfresh.imp_left fun hlt ↦ ?_⟩
    have httl := (resolveTtlSeconds_mem requested).2
    linarith

/-- **What a sweep returns is what has happened.** Once it is through, its results are those rooms
of the ones it listed in which its script has removed somebody, each once, with everybody who had
given no sign of life for the time-to-live when the clock was read for the room, and whom the script
has left. -/
theorem results_of_done (h : (machine requested).Reaches Machine.anyStep s)
    (hsweep : s.sweep = some sw) (hdone : sw.roomIds = []) :
    (sw.results.map PresenceSweepResult.roomId).Nodup ∧
    (∀ result ∈ sw.results, result.roomId ∈ (Keyspace.after (s.calls.take sw.startedAt)).rooms ∧
      result.expired ≠ [] ∧ ∃ n read, Reported sw.startNow sw.startedAt
        (resolveTtlSeconds requested) s.calls s.now result n read) ∧
    ∀ r ∈ (Keyspace.after (s.calls.take sw.startedAt)).rooms, ∃ result n read,
      result.roomId = r ∧ (result ∈ sw.results ↔ result.expired ≠ []) ∧
      Reported sw.startNow sw.startedAt (resolveTtlSeconds requested) s.calls s.now result n
        read := by
  have hs := (sound_of_reaches h).sweep sw hsweep
  obtain ⟨hnodup, hrooms⟩ := hs.rooms
  rw [hdone, List.append_nil] at hnodup hrooms
  have hmem : ∀ result, result ∈ sw.results ↔ result ∈ sw.swept ∧ result.expired ≠ [] := by
    intro result
    rw [hs.results, List.mem_filter, decide_eq_true_iff, List.length_pos_iff]
  refine ⟨?_, fun result hresult ↦ ?_, fun r hr ↦ ?_⟩
  · rw [hs.results]
    exact hnodup.sublist (List.filter_sublist.map _)
  · obtain ⟨hswept, hexpired⟩ := (hmem result).mp hresult
    exact ⟨(hrooms _).mp (List.mem_map_of_mem hswept), hexpired, hs.reported result hswept⟩
  · obtain ⟨result, hswept, rfl⟩ := List.mem_map.mp ((hrooms r).mpr hr)
    obtain ⟨n, read, hreported⟩ := hs.reported result hswept
    exact ⟨result, n, read, rfl, by rw [hmem, and_iff_right hswept], hreported⟩

/-- Two rooms are swept. In the first, one member is stale; a member of the second gives a sign of
life just before its turn, and a third room appears too late. -/
def lateRun : List SweepAction :=
  [.call (.join "r1" ⟨"a", "ua", "A", "#fff", none⟩ 1000),
    .call (.join "r1" ⟨"b", "ub", "B", "#fff", none⟩ 9000),
    .call (.join "r2" ⟨"c", "uc", "C", "#fff", none⟩ 1000), .tick 32000, .smembers ["r2", "r1"],
    .sweepRoom, .call (.heartbeat "r2" "c" 32000), .reply, .tick 33000, .sweepRoom,
    .call (.join "r3" ⟨"d", "ud", "D", "#fff", none⟩ 33000), .reply]

theorem fresh_of_done_lateRun : ∃ s sw, (machine none).exec { now := 0 } lateRun = some s ∧
    s.sweep = some sw ∧ sw.roomIds = [] ∧ sw.results.map PresenceSweepResult.expired = [["a"]] ∧
    Fresh (sw.startNow - 30000) sw.startedAt s.calls "r2" "c" := by
  have hrun : ((machine none).exec { now := 0 } lateRun).any (fun s ↦ s.sweep.any fun sw ↦
      decide (sw.roomIds = [] ∧ sw.results.map PresenceSweepResult.expired = [["a"]] ∧
        (s.keys.room "r2").users.get? "c" ≠ none)) = true := by decide +kernel
  obtain ⟨s, hs, hsteps, hp⟩ := Machine.exists_of_exec _ _ hrun
  obtain ⟨sw, hsw, hdecide⟩ := (Option.any_eq_true _ _).mp hp
  obtain ⟨hdone, hresults, hpresent⟩ := of_decide_eq_true hdecide
  exact ⟨s, sw, hs, hsw, hdone, hresults,
    fresh_of_done ⟨_, ⟨0, rfl⟩, hsteps⟩ hsw hdone (RoomKeys.present_iff_get?.mpr hpresent)⟩

/-- The one result is for the first room, for a reading of the clock between the listing at 32 and
the end at 33 seconds. -/
theorem results_of_done_lateRun : ∃ s sw result n read,
    (machine none).exec { now := 0 } lateRun = some s ∧ s.sweep = some sw ∧ sw.roomIds = [] ∧
    sw.results = [result] ∧ result.roomId = "r1" ∧ result.expired = ["a"] ∧
    Reported 32000 3 30 s.calls 33000 result n read := by
  have hrun : ((machine none).exec { now := 0 } lateRun).any (fun s ↦ s.sweep.any fun sw ↦
      decide (sw.roomIds = [] ∧ sw.startNow = 32000 ∧ sw.startedAt = 3 ∧ s.now = 33000 ∧
        sw.results.map PresenceSweepResult.roomId = ["r1"] ∧
        sw.results.map PresenceSweepResult.expired = [["a"]])) = true := by decide +kernel
  obtain ⟨s, hs, hsteps, hp⟩ := Machine.exists_of_exec _ _ hrun
  obtain ⟨sw, hsw, hdecide⟩ := (Option.any_eq_true _ _).mp hp
  obtain ⟨hdone, hstartNow, hstartedAt, hnow, hroomIds, hexpired⟩ := of_decide_eq_true hdecide
  obtain ⟨result, hresult, hroomId⟩ := List.map_eq_singleton_iff.mp hroomIds
  have hresults := results_of_done ⟨_, ⟨0, rfl⟩, hsteps⟩ hsw hdone
  obtain ⟨-, -, n, read, hreported⟩ := hresults.2.1 result (hresult ▸ List.mem_singleton_self _)
  rw [hstartNow, hstartedAt, hnow] at hreported
  rw [hresult, List.map_singleton, List.singleton_inj] at hexpired
  exact ⟨s, sw, result, n, read, hs, hsw, hdone, hresult, hroomId, hexpired, hreported⟩

end Sweeping

end Synapse.Presence
