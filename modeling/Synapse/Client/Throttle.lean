import Mathlib.Data.List.Chain
import Mathlib.Data.Rat.Defs
import Mathlib.Tactic.Linarith
import Synapse.Transition.Machine

/-!
# The throttle

`throttle` of `client/src/lib/throttle.ts` invokes a function for the first call at once, and for
the latest call of the following interval when that ends. A timer that is late may be overtaken by a
call that is invoked at once, and then it is stopped; the call that it was set for is dropped, since
there is a newer one.

The timer is due an interval after the last invocation as long as it is pending, and what is pending
is the latest call (`Throttling.Sound`). The function does not call the throttle itself.
-/

namespace Synapse

open Transition

/-! ## `throttle.ts` -/

/-- What a throttled function remembers. -/
structure Throttle (A : Type*) where
  last : ℚ := 0
  /-- When the timer is due, if it is set. -/
  timer : Option ℚ := none
  pendingArgs : Option A := none

namespace Throttle

variable {A : Type*}

/-- A call. The clock is read at `now`, and again at `later` if the function is invoked, which comes
with the result. -/
def call (intervalMs : ℚ) (t : Throttle A) (args : A) (now later : ℚ) :
    Throttle A × Option (ℚ × A) :=
  let remaining := intervalMs - (now - t.last)
  if remaining ≤ 0 then ({ t with last := later, timer := none }, some (later, args))
  else
    -- within the window: a single trailing call
    ({ t with timer := some (t.timer.getD (now + remaining)), pendingArgs := some args }, none)

/-- The timer fires. -/
def fire (t : Throttle A) (now : ℚ) : Throttle A × Option (ℚ × A) :=
  match t.pendingArgs with
  | some next => ({ last := now, timer := none, pendingArgs := none }, some (now, next))
  | none => ({ t with timer := none }, none)

/-- Drops the pending trailing call. -/
def cancel (t : Throttle A) : Throttle A := { t with timer := none, pendingArgs := none }

end Throttle

/-! ## A throttle in use -/

/-- A throttle, and what has been done with it. The arguments of a call go with its number. -/
structure Throttling (α : Type*) where
  throttle : Throttle (ℕ × α) := {}
  /-- The latest reading. -/
  clock : ℚ
  /-- The arguments of all calls. -/
  calls : List α := []
  /-- When the function has been invoked, and for which calls. -/
  invocations : List (ℚ × ℕ × α) := []
  /-- Whether there has been a cancel since the latest call. -/
  cancelled : Bool := false

inductive ThrottleAction (α : Type*)
  | call (args : α) (now later : ℚ)
  | fire (now : ℚ)
  | cancel

/-- The clock does not run backwards, and a timer does not fire before it is due. -/
def throttling (α : Type*) (intervalMs : ℚ) : Machine (Throttling α) (ThrottleAction α) where
  init s := ∃ clock, s = { clock }
  step s
    | .call args now later =>
      if s.clock ≤ now ∧ now ≤ later then
        let r := s.throttle.call intervalMs (s.calls.length, args) now later
        some
          { throttle := r.1
            clock := later
            calls := s.calls ++ [args]
            invocations := s.invocations ++ r.2.toList
            cancelled := false }
      else none
    | .fire now =>
      match s.throttle.timer with
      | some due =>
        if s.clock ≤ now ∧ due ≤ now then
          let r := s.throttle.fire now
          some { s with
            throttle := r.1
            clock := now
            invocations := s.invocations ++ r.2.toList }
        else none
      | none => none
    | .cancel => some { s with throttle := s.throttle.cancel, cancelled := true }

namespace Throttling

variable {α : Type*} {intervalMs : ℚ} {s t : Throttling α} {a : ThrottleAction α}

/-- What holds of a throttle in use. -/
structure Sound (intervalMs : ℚ) (s : Throttling α) : Prop where
  last : ∀ i ∈ s.invocations.getLast?, i.1 = s.throttle.last
  due : ∀ due ∈ s.throttle.timer, due = s.throttle.last + intervalMs
  /-- A timer is pending for the latest call, which has not been invoked. -/
  pending : ∀ due ∈ s.throttle.timer, ∃ n args, s.throttle.pendingArgs = some (n, args) ∧
    s.calls.length = n + 1 ∧ s.calls.getLast? = some args ∧ ∀ i ∈ s.invocations, i.2.1 < n
  made : ∀ i ∈ s.invocations, s.calls[i.2.1]? = some i.2.2
  apart : s.invocations.IsChain fun i j ↦ i.1 + intervalMs ≤ j.1
  newer : s.invocations.Pairwise fun i j ↦ i.2.1 < j.2.1
  settled : s.throttle.timer = none → s.cancelled = false → ∀ args ∈ s.calls.getLast?,
    ∃ time, (time, s.calls.length - 1, args) ∈ s.invocations

theorem Sound.start (clock : ℚ) : Sound intervalMs ({ clock } : Throttling α) where
  last _ hi := nomatch hi
  due _ hdue := nomatch hdue
  pending _ hdue := nomatch hdue
  made _ hi := nomatch hi
  apart := List.isChain_nil
  newer := List.Pairwise.nil
  settled _ _ _ hargs := nomatch hargs

theorem Sound.lt_length (h : s.Sound intervalMs) {i : ℚ × ℕ × α} (hi : i ∈ s.invocations) :
    i.2.1 < s.calls.length :=
  (List.getElem?_eq_some_iff.mp (h.made i hi)).1

theorem Sound.made_concat (h : s.Sound intervalMs) (args : α) :
    ∀ i ∈ s.invocations, (s.calls ++ [args])[i.2.1]? = some i.2.2 := by
  intro i hi
  rw [List.getElem?_append_left (h.lt_length hi)]
  exact h.made i hi

theorem Sound.apart_concat (h : s.Sound intervalMs) {time : ℚ} (call : ℕ × α)
    (htime : s.throttle.last + intervalMs ≤ time) :
    (s.invocations ++ [(time, call)]).IsChain fun i j ↦ i.1 + intervalMs ≤ j.1 := by
  refine h.apart.append (List.isChain_singleton _) ?_
  intro i hi j hj
  rw [List.head?_singleton, Option.mem_some_iff] at hj
  rw [← hj, h.last i hi]
  exact htime

theorem Sound.newer_concat (h : s.Sound intervalMs) {time : ℚ} {n : ℕ} {args : α}
    (hn : ∀ i ∈ s.invocations, i.2.1 < n) :
    (s.invocations ++ [(time, n, args)]).Pairwise fun i j ↦ i.2.1 < j.2.1 := by
  refine List.pairwise_append.mpr ⟨h.newer, List.pairwise_singleton _ _, ?_⟩
  intro i hi j hj
  rw [List.mem_singleton.mp hj]
  exact hn i hi

theorem Sound.call (h : s.Sound intervalMs) {args : α} {now later : ℚ}
    (hclock : s.clock ≤ now ∧ now ≤ later) :
    Sound intervalMs
      { throttle := (s.throttle.call intervalMs (s.calls.length, args) now later).1
        clock := later
        calls := s.calls ++ [args]
        invocations := s.invocations ++
          (s.throttle.call intervalMs (s.calls.length, args) now later).2.toList
        cancelled := false } := by
  by_cases hremaining : intervalMs - (now - s.throttle.last) ≤ 0
  · -- the call is invoked, and a pending timer is stopped
    have hcall : s.throttle.call intervalMs (s.calls.length, args) now later
        = ({ s.throttle with last := later, timer := none }, some (later, s.calls.length, args)) :=
      if_pos hremaining
    rw [hcall]
    refine ⟨fun i hi ↦ ?_, fun _ hdue ↦ (nomatch hdue), fun _ hdue ↦ (nomatch hdue), fun i hi ↦ ?_,
      h.apart_concat _ (by linarith [hclock.2]), h.newer_concat fun i hi ↦ h.lt_length hi,
      fun _ _ args' hargs ↦ ?_⟩
    · rw [Option.toList_some, List.getLast?_concat, Option.mem_some_iff] at hi
      rw [← hi]
    · rcases List.mem_append.mp hi with hi | hi
      · exact h.made_concat args i hi
      · rw [List.mem_singleton.mp hi]
        exact List.getElem?_concat_length
    · rw [List.getLast?_concat, Option.mem_some_iff] at hargs
      refine ⟨later, List.mem_append_right _ ?_⟩
      rw [← hargs, List.length_append]
      exact List.mem_singleton_self _
  · have hcall : s.throttle.call intervalMs (s.calls.length, args) now later
        = ({ s.throttle with
              timer := some (s.throttle.timer.getD (now + (intervalMs - (now - s.throttle.last))))
              pendingArgs := some (s.calls.length, args) }, none) :=
      if_neg hremaining
    rw [hcall, Option.toList_none, List.append_nil]
    refine ⟨h.last, fun due hdue ↦ ?_, fun _ _ ↦ ⟨s.calls.length, args, rfl,
      List.length_append, List.getLast?_concat, fun i hi ↦ h.lt_length hi⟩,
      h.made_concat args, h.apart, h.newer, fun htimer ↦ (nomatch htimer)⟩
    rw [← Option.mem_some_iff.mp hdue]
    cases htimer : s.throttle.timer with
    | none =>
      rw [Option.getD_none]
      linarith
    | some due' =>
      rw [Option.getD_some]
      exact h.due due' htimer

theorem Sound.fire (h : s.Sound intervalMs) {now due : ℚ} (htimer : s.throttle.timer = some due)
    (hdue : due ≤ now) :
    Sound intervalMs { s with
      throttle := (s.throttle.fire now).1
      clock := now
      invocations := s.invocations ++ (s.throttle.fire now).2.toList } := by
  obtain ⟨n, args, hpending, hlength, hlast, hnewer⟩ := h.pending due htimer
  have hfire : s.throttle.fire now
      = ({ last := now, timer := none, pendingArgs := none }, some (now, n, args)) := by
    rw [Throttle.fire, hpending]
  have hmade : s.calls[n]? = some args := by
    rw [List.getLast?_eq_getElem?, hlength] at hlast
    exact hlast
  have hspaced : s.throttle.last + intervalMs ≤ now := (h.due due htimer) ▸ hdue
  rw [hfire]
  refine ⟨fun i hi ↦ ?_, fun _ hdue ↦ (nomatch hdue), fun _ hdue ↦ (nomatch hdue), fun i hi ↦ ?_,
    h.apart_concat _ hspaced, h.newer_concat hnewer, fun _ _ args' hargs ↦ ?_⟩
  · rw [Option.toList_some, List.getLast?_concat, Option.mem_some_iff] at hi
    rw [← hi]
  · rcases List.mem_append.mp hi with hi | hi
    · exact h.made i hi
    · rw [List.mem_singleton.mp hi]
      exact hmade
  · rw [hlast, Option.mem_some_iff] at hargs
    refine ⟨now, List.mem_append_right _ ?_⟩
    rw [← hargs, hlength]
    exact List.mem_singleton_self _

theorem Sound.cancel (h : s.Sound intervalMs) :
    Sound intervalMs { s with throttle := s.throttle.cancel, cancelled := true } where
  last := h.last
  due _ hdue := nomatch hdue
  pending _ hdue := nomatch hdue
  made := h.made
  apart := h.apart
  newer := h.newer
  settled _ hcancelled := nomatch hcancelled

theorem Sound.step (h : s.Sound intervalMs) (hs : (throttling α intervalMs).step s a = some t) :
    t.Sound intervalMs := by
  cases a with
  | call args now later =>
    obtain ⟨hclock, ht⟩ := Option.ite_none_right_eq_some.mp hs
    cases ht
    exact h.call hclock
  | fire now =>
    simp only [throttling] at hs
    split at hs
    · next due htimer =>
      obtain ⟨hclock, ht⟩ := Option.ite_none_right_eq_some.mp hs
      cases ht
      exact h.fire htimer hclock.2
    · cases hs
  | cancel =>
    cases hs
    exact h.cancel

theorem sound_of_reaches (h : (throttling α intervalMs).Reaches Machine.anyStep s) :
    s.Sound intervalMs := by
  refine h.invariant ?_ fun _ _ _ hu _ hs ↦ hu.step hs
  rintro s ⟨clock, rfl⟩
  exact Sound.start clock

end Throttling

/-- **Spacing, and no lost last call.** Whatever calls, cancels and firings come in whatever order,
invocations follow each other at least an interval apart, each for a call that is newer than that of
the one before; and the latest call has been invoked, unless a timer is pending, which is then for
this call, or there was a cancel after it. -/
theorem throttle_spaced {α : Type*} {intervalMs : ℚ} {s : Throttling α}
    (h : (throttling α intervalMs).Reaches Machine.anyStep s) :
    (s.invocations.IsChain fun i j ↦ i.1 + intervalMs ≤ j.1) ∧
    (s.invocations.Pairwise fun i j ↦ i.2.1 < j.2.1) ∧
    (∀ i ∈ s.invocations, s.calls[i.2.1]? = some i.2.2) ∧
    ∀ args, s.calls.getLast? = some args →
      (s.throttle.timer = none → s.cancelled = false →
        ∃ time, (time, s.calls.length - 1, args) ∈ s.invocations) ∧
      (s.throttle.timer ≠ none →
        s.throttle.pendingArgs = some (s.calls.length - 1, args)) := by
  have hsound := Throttling.sound_of_reaches h
  refine ⟨hsound.apart, hsound.newer, hsound.made, fun args hargs ↦
    ⟨fun htimer hcancelled ↦ hsound.settled htimer hcancelled args hargs, fun htimer ↦ ?_⟩⟩
  obtain ⟨due, hdue⟩ := Option.ne_none_iff_exists'.mp htimer
  obtain ⟨n, args', hpending, hlength, hlast, -⟩ := hsound.pending due hdue
  rw [hargs, Option.some_inj] at hlast
  rw [hpending, hlength, hlast]
  rfl

/-- The timer for the second call is late, and the third call overtakes it. -/
private def lateTimer : List (ThrottleAction String) :=
  [.call "a" 1000 1000, .call "b" 1020 1020, .call "c" 1060 1061, .call "d" 1090 1090, .fire 1120]

theorem throttle_spaced_lateTimer : ∃ s, (throttling String 50).exec { clock := 1000 } lateTimer
    = some s ∧ s.invocations.length = 3 ∧
      s.invocations.IsChain fun i j ↦ i.1 + 50 ≤ j.1 := by
  obtain ⟨s, hexec, hsteps, hp⟩ := Machine.exists_of_exec (M := throttling String 50)
    (p := fun s ↦ decide (s.invocations.length = 3)) { clock := 1000 } lateTimer
    (by decide +kernel)
  exact ⟨s, hexec, of_decide_eq_true hp, (throttle_spaced ⟨_, ⟨1000, rfl⟩, hsteps⟩).1⟩

end Synapse
