import Mathlib.Algebra.Order.Ring.Rat
import Mathlib.Data.Prod.Lex
import Synapse.Live.OrderedSet
import Synapse.Transition.Due

/-!
# The frames of the scheduler

`rafScheduler.ts`, with several tasks and the callbacks the platform keeps. A task that runs may
call the scheduler: it may register and unregister tasks, its own among them, and request the next
frame or cancel it. The loop of a frame goes over a copy of the set, so the tasks of a frame are
those registered when it began.

Between two frames the platform has one callback at most, however many requests there were, and it
is the one the scheduler knows of. A request that is not cancelled is not lost, even if it is made
by a task of the frame that is running.
-/

namespace Synapse.Client

open Live Transition

/-- What the scheduler is called for. -/
inductive SchedulerCall (T : Type*)
  | schedule (task : T)
  /-- The function that `schedule` has returned for the task. -/
  | unregister (task : T)
  | request
  | cancel

/-- `createRafScheduler`, and what the platform keeps for it. -/
structure FrameScheduler (T : Type*) where
  tasks : OrderedSet T := .empty
  /-- The handle of the frame requested. -/
  frame : Option ℕ := none
  /-- The callbacks the platform has to run. -/
  pending : List ℕ := []
  /-- The next handle the platform gives out. -/
  nextHandle : ℕ := 1

namespace FrameScheduler

variable {T : Type*} [DecidableEq T] (raf : Bool) (s : FrameScheduler T)

/-- Requests a frame, unless one is requested or the platform has none. -/
def request : FrameScheduler T :=
  if s.frame.isSome then s
  else if raf then
    { s with
      frame := some s.nextHandle
      pending := s.pending ++ [s.nextHandle]
      nextHandle := s.nextHandle + 1 }
  else s

def cancel : FrameScheduler T :=
  match s.frame with
  | none => s
  | some handle => { s with frame := none, pending := s.pending.filter (· ≠ handle) }

def schedule (task : T) : FrameScheduler T := { s with tasks := s.tasks.add task }

def unregister (task : T) : FrameScheduler T :=
  let left := { s with tasks := s.tasks.delete task }
  if left.tasks.toList = [] then left.cancel else left

def call : SchedulerCall T → FrameScheduler T
  | .schedule task => s.schedule task
  | .unregister task => s.unregister task
  | .request => s.request raf
  | .cancel => s.cancel

/-- The platform runs a callback: `tick`, up to its loop. -/
def tick (handle : ℕ) : FrameScheduler T :=
  { s with pending := s.pending.filter (· ≠ handle), frame := none }

/-- The platform has the callback the scheduler knows of, and no other. -/
def InStep (s : FrameScheduler T) : Prop := s.pending = s.frame.toList

variable {raf s} {task : T} {handle : ℕ}

omit [DecidableEq T] in
theorem InStep.request (h : s.InStep) : (s.request raf).InStep := by
  unfold FrameScheduler.request
  split_ifs with hframe
  · exact h
  · rw [Option.not_isSome_iff_eq_none] at hframe
    rw [InStep, hframe] at h
    rw [InStep, h]
    rfl
  · exact h

omit [DecidableEq T] in
theorem InStep.cancel (h : s.InStep) : s.cancel.InStep := by
  unfold FrameScheduler.cancel
  split
  · exact h
  · next handle hframe =>
    rw [InStep, hframe] at h
    rw [InStep, h]
    simp

theorem InStep.call (h : s.InStep) (c : SchedulerCall T) : (s.call raf c).InStep := by
  cases c with
  | schedule task => exact h
  | unregister task =>
    unfold FrameScheduler.call FrameScheduler.unregister
    dsimp only
    split_ifs
    · exact InStep.cancel h
    · exact h
  | request => exact h.request
  | cancel => exact h.cancel

omit [DecidableEq T] in
theorem InStep.tick (h : s.InStep) (hmem : handle ∈ s.pending) : (s.tick handle).InStep := by
  rw [InStep] at h
  rw [h, Option.mem_toList] at hmem
  rw [InStep, FrameScheduler.tick, h, hmem]
  simp

/-- A call that leaves a task registered and does not cancel the frame. -/
def Keeps (task : T) : SchedulerCall T → Prop
  | .unregister other => other ≠ task
  | .cancel => False
  | _ => True

/-- As long as a task is registered, its frame can be lost to a cancellation only. -/
theorem requested_call {c : SchedulerCall T} (hkeeps : Keeps task c) (htask : task ∈ s.tasks)
    (hframe : s.frame ≠ none) :
    task ∈ (s.call raf c).tasks ∧ (s.call raf c).frame ≠ none := by
  cases c with
  | schedule other => exact ⟨OrderedSet.mem_add.mpr (Or.inl htask), hframe⟩
  | unregister other =>
    have hleft : task ∈ s.tasks.delete other :=
      OrderedSet.mem_delete.mpr ⟨htask, fun h ↦ hkeeps h.symm⟩
    have hne : (s.tasks.delete other).toList ≠ [] :=
      List.ne_nil_of_mem (OrderedSet.mem_toList.mpr hleft)
    rw [FrameScheduler.call, unregister, if_neg hne]
    exact ⟨hleft, hframe⟩
  | request =>
    rw [FrameScheduler.call, FrameScheduler.request, if_pos (Option.isSome_iff_ne_none.mpr hframe)]
    exact ⟨htask, hframe⟩
  | cancel => exact hkeeps.elim

end FrameScheduler

/-! ## Frames -/

/-- A frame that has begun. -/
structure FrameRun (T : Type*) where
  now : ℚ
  /-- The tasks registered when it began. -/
  snapshot : List T
  /-- The tasks it has run. -/
  done : List T
  /-- The tasks it has still to run. -/
  rest : List T

/-- A scheduler, and the frame under way. -/
structure Frames (T : Type*) where
  scheduler : FrameScheduler T := {}
  current : Option (FrameRun T) := none
  /-- History: how often each task has been run. -/
  runs : T → ℕ := fun _ ↦ 0

inductive FrameAction (T : Type*)
  /-- The scheduler is called, by the task that runs or between two frames. -/
  | call (c : SchedulerCall T)
  /-- The platform begins a frame. -/
  | fire (handle : ℕ) (now : ℚ)
  /-- The loop runs its next task. -/
  | run
  /-- The task that was run throws, which ends the loop. -/
  | throws
  | finish

namespace Frames

variable {T : Type*} [DecidableEq T] (raf : Bool)

def step (s : Frames T) : FrameAction T → Option (Frames T)
  | .call c => some { s with scheduler := s.scheduler.call raf c }
  | .fire handle now =>
    if s.current.isNone ∧ handle ∈ s.scheduler.pending then
      some { s with
        scheduler := s.scheduler.tick handle
        current := some ⟨now, s.scheduler.tasks.toList, [], s.scheduler.tasks.toList⟩ }
    else none
  | .run =>
    match s.current with
    | some ⟨now, snapshot, done, task :: rest⟩ =>
      some { s with
        current := some ⟨now, snapshot, done ++ [task], rest⟩
        runs := Function.update s.runs task (s.runs task + 1) }
    | _ => none
  | .throws =>
    match s.current with
    | some ⟨_, _, _ :: _, _⟩ => some { s with current := none }
    | _ => none
  | .finish =>
    match s.current with
    | some ⟨_, _, _, []⟩ => some { s with current := none }
    | _ => none

/-- A scheduler, from its creation. `raf` is whether the platform has frames. -/
def machine : Machine (Frames T) (FrameAction T) := ⟨fun s ↦ s = {}, step raf⟩

variable {raf} {s s' : Frames T} {a : FrameAction T} {task : T}

/-- Every way in which a step can be taken. -/
inductive Step (raf : Bool) (s : Frames T) : FrameAction T → Frames T → Prop
  | call (c : SchedulerCall T) :
      Step raf s (.call c) { s with scheduler := s.scheduler.call raf c }
  | fire (handle : ℕ) (now : ℚ) (hidle : s.current = none)
      (hmem : handle ∈ s.scheduler.pending) :
      Step raf s (.fire handle now) { s with
        scheduler := s.scheduler.tick handle
        current := some ⟨now, s.scheduler.tasks.toList, [], s.scheduler.tasks.toList⟩ }
  | run (now : ℚ) (snapshot done : List T) (task : T) (rest : List T)
      (hcurrent : s.current = some ⟨now, snapshot, done, task :: rest⟩) :
      Step raf s .run { s with
        current := some ⟨now, snapshot, done ++ [task], rest⟩
        runs := Function.update s.runs task (s.runs task + 1) }
  | throws (f : FrameRun T) (hcurrent : s.current = some f) :
      Step raf s .throws { s with current := none }
  | finish (f : FrameRun T) (hcurrent : s.current = some f) (hrest : f.rest = []) :
      Step raf s .finish { s with current := none }

theorem Step.of_step (h : s.step raf a = some s') : Step raf s a s' := by
  cases a with
  | call c =>
    cases h
    exact .call c
  | fire handle now =>
    obtain ⟨⟨hidle, hmem⟩, hs⟩ := Option.ite_none_right_eq_some.mp h
    cases hs
    exact .fire handle now (Option.isNone_iff_eq_none.mp hidle) hmem
  | run =>
    simp only [step] at h
    split at h
    · next now snapshot done task rest hcurrent =>
      cases h
      exact .run now snapshot done task rest hcurrent
    · cases h
  | throws =>
    simp only [step] at h
    split at h
    · next hcurrent =>
      cases h
      exact .throws _ hcurrent
    · cases h
  | finish =>
    simp only [step] at h
    split at h
    · next hcurrent =>
      cases h
      exact .finish _ hcurrent rfl
    · cases h

/-- What holds of every scheduler. -/
structure Sound (s : Frames T) : Prop where
  inStep : s.scheduler.InStep
  /-- A frame goes over the tasks registered when it began, each once. -/
  split : ∀ f, s.current = some f → f.done ++ f.rest = f.snapshot ∧ f.snapshot.Nodup

theorem Sound.step (h : s.Sound) (hs : Step raf s a s') : s'.Sound := by
  cases hs with
  | call c => exact ⟨h.inStep.call c, h.split⟩
  | fire handle now hidle hmem =>
    refine ⟨h.inStep.tick hmem, fun f hf ↦ ?_⟩
    cases hf
    exact ⟨rfl, s.scheduler.tasks.nodup⟩
  | run now snapshot done task rest hcurrent =>
    refine ⟨h.inStep, fun f hf ↦ ?_⟩
    cases hf
    obtain ⟨hsplit, hnodup⟩ := h.split _ hcurrent
    exact ⟨by simpa using hsplit, hnodup⟩
  | throws | finish => exact ⟨h.inStep, fun f hf ↦ by cases hf⟩

theorem Sound.of_reaches (h : (machine raf).Reaches Machine.anyStep s) : s.Sound := by
  refine h.invariant (fun s hs ↦ ?_) fun _ _ _ hu _ hs ↦ hu.step (.of_step hs)
  obtain rfl : s = {} := hs
  exact ⟨rfl, fun f hf ↦ by cases hf⟩

/-! ## Requests are not lost -/

/-- A step that leaves the task registered, and neither cancels the frame nor throws. -/
def Keeps (task : T) (_ : Frames T) : FrameAction T → Prop
  | .call c => FrameScheduler.Keeps task c
  | .throws => False
  | _ => True

/-- The platform begins a frame, or the loop of a frame goes on. -/
def Turns (_ : Frames T) : FrameAction T → Prop
  | .fire _ _ | .run | .finish => True
  | _ => False

/-- The task is to be run in the frame under way or in the next one. -/
def Awaits (task : T) (s : Frames T) : Prop :=
  (∃ f, s.current = some f ∧ task ∈ f.rest) ∨
    (task ∈ s.scheduler.tasks ∧ s.scheduler.frame ≠ none)

/-- What is left before the task runs: first the rest of a frame that has passed it by or has begun
without it, then the beginning of the next frame, then the tasks ahead of it. -/
def left (task : T) (s : Frames T) : ℕ ×ₗ ℕ :=
  match s.current with
  | some f => if task ∈ f.rest then toLex (0, f.rest.length) else toLex (2, f.rest.length)
  | none => toLex (1, 0)

theorem left_idle (h : s.current = none) : s.left task = toLex (1, 0) := by rw [left, h]

theorem left_of_mem {f : FrameRun T} (h : s.current = some f) (hmem : task ∈ f.rest) :
    s.left task = toLex (0, f.rest.length) := by
  simp only [left, h, if_pos hmem]

theorem left_of_not_mem {f : FrameRun T} (h : s.current = some f) (hmem : task ∉ f.rest) :
    s.left task = toLex (2, f.rest.length) := by
  simp only [left, h, if_neg hmem]

theorem Awaits.call (h : s.Awaits task) {c : SchedulerCall T}
    (hkeeps : FrameScheduler.Keeps task c) :
    Awaits task { s with scheduler := s.scheduler.call raf c } :=
  h.imp_right fun ⟨htask, hframe⟩ ↦ FrameScheduler.requested_call hkeeps htask hframe

/-- While the task is awaited, the frame under way goes on or the next one begins. -/
theorem exists_turns (hsound : s.Sound) (h : s.Awaits task) :
    ∃ a s', Keeps task s a ∧ Turns s a ∧ s.step raf a = some s' := by
  cases hcurrent : s.current with
  | some f =>
    obtain ⟨now, snapshot, done, rest⟩ := f
    cases rest with
    | nil => exact ⟨.finish, _, trivial, trivial, by simp only [step, hcurrent]; rfl⟩
    | cons next rest => exact ⟨.run, _, trivial, trivial, by simp only [step, hcurrent]; rfl⟩
  | none =>
    rcases h with ⟨f, hf, -⟩ | ⟨-, hframe⟩
    · rw [hcurrent] at hf
      cases hf
    · obtain ⟨handle, hhandle⟩ := Option.ne_none_iff_exists'.mp hframe
      have hmem : handle ∈ s.scheduler.pending := by
        rw [hsound.inStep, hhandle]
        exact List.mem_singleton_self _
      refine ⟨.fire handle 0, _, trivial, trivial, if_pos ⟨?_, hmem⟩⟩
      rw [hcurrent]
      rfl

/-- **A step runs the task, or the task is still awaited** and not further away; a turn of the loop
brings it closer. -/
theorem Step.awaits (hs : Step raf s a s') (h : s.Awaits task) (hkeeps : Keeps task s a) :
    s.runs task < s'.runs task ∨
      s'.runs task = s.runs task ∧ s'.Awaits task ∧ s'.left task ≤ s.left task ∧
        (Turns s a → s'.left task < s.left task) := by
  cases hs with
  | call c => exact Or.inr ⟨rfl, h.call hkeeps, le_rfl, False.elim⟩
  | throws => exact hkeeps.elim
  | fire handle now hidle =>
    rcases h with ⟨f, hf, -⟩ | ⟨htask, -⟩
    · rw [hidle] at hf
      cases hf
    · have hmem : task ∈ s.scheduler.tasks.toList := OrderedSet.mem_toList.mpr htask
      have hlt : left task { s with
          scheduler := s.scheduler.tick handle
          current := some ⟨now, s.scheduler.tasks.toList, [], s.scheduler.tasks.toList⟩ }
            < s.left task := by
        rw [left_of_mem rfl hmem, left_idle hidle]
        exact Prod.Lex.toLex_lt_toLex.mpr (Or.inl Nat.zero_lt_one)
      exact Or.inr ⟨rfl, Or.inl ⟨_, rfl, hmem⟩, hlt.le, fun _ ↦ hlt⟩
  | finish f hcurrent hrest =>
    have hlt : left task { s with current := none } < s.left task := by
      rw [left_idle rfl, left_of_not_mem hcurrent (by rw [hrest]; exact List.not_mem_nil)]
      exact Prod.Lex.toLex_lt_toLex.mpr (Or.inl Nat.one_lt_two)
    refine Or.inr ⟨rfl, ?_, hlt.le, fun _ ↦ hlt⟩
    rcases h with ⟨g, hg, hmem⟩ | hnext
    · rw [hcurrent] at hg
      cases hg
      rw [hrest] at hmem
      cases hmem
    · exact Or.inr hnext
  | run now snapshot done next rest hcurrent =>
    rcases eq_or_ne next task with rfl | hne
    · left
      change s.runs next < Function.update s.runs next (s.runs next + 1) next
      rw [Function.update_self]
      exact Nat.lt_succ_self _
    · have hmem : task ∈ next :: rest ↔ task ∈ rest := by
        rw [List.mem_cons]
        exact or_iff_right hne.symm
      have hlt : left task { s with
          current := some ⟨now, snapshot, done ++ [next], rest⟩
          runs := Function.update s.runs next (s.runs next + 1) } < s.left task := by
        by_cases hrest : task ∈ rest
        · rw [left_of_mem rfl hrest, left_of_mem hcurrent (hmem.mpr hrest)]
          exact Prod.Lex.toLex_lt_toLex.mpr (Or.inr ⟨rfl, Nat.lt_succ_self _⟩)
        · rw [left_of_not_mem rfl hrest, left_of_not_mem hcurrent (hrest ∘ hmem.mp)]
          exact Prod.Lex.toLex_lt_toLex.mpr (Or.inr ⟨rfl, Nat.lt_succ_self _⟩)
      refine Or.inr ⟨Function.update_of_ne hne.symm _ _, ?_, hlt.le, fun _ ↦ hlt⟩
      rcases h with ⟨g, hg, hgmem⟩ | hnext
      · rw [hcurrent] at hg
        cases hg
        exact Or.inl ⟨_, rfl, hmem.mp hgmem⟩
      · exact Or.inr hnext

/-- **A requested frame is not lost.** In every run of the scheduler, whatever its tasks call while
they run, the platform has one callback at most, the one the scheduler knows of; a frame runs the
tasks registered when it began, in order and each once. Once a frame is requested every registered
task is bound to run as the frames go on, unless it is unregistered, the frame is cancelled or a
task throws. -/
theorem awaited_task_runs (h : (machine raf).Reaches Machine.anyStep s) :
    s.scheduler.pending = s.scheduler.frame.toList ∧
    (∀ f, s.current = some f → f.done ++ f.rest = f.snapshot ∧ f.snapshot.Nodup) ∧
    ∀ task ∈ s.scheduler.tasks, s.scheduler.frame ≠ none →
      (machine raf).Due (Keeps task) Turns (fun u ↦ s.runs task < u.runs task) s := by
  have hsound := Sound.of_reaches h
  refine ⟨hsound.inStep, hsound.split, fun task htask hframe ↦ ?_⟩
  refine Machine.Due.of_rank
    (P := fun u ↦ u.Sound ∧ u.Awaits task ∧ u.runs task = s.runs task) (left task)
    (fun u ⟨hu, hawaits, _⟩ _ ↦ exists_turns hu hawaits)
    (fun u a u' ⟨hu, hawaits, hruns⟩ _ hkeeps hs hopen ↦ ?_)
    (fun u a u' ⟨hu, hawaits, hruns⟩ _ hkeeps hturns hs hopen ↦ ?_)
    ⟨hsound, Or.inr ⟨htask, hframe⟩, rfl⟩
  · have hstep : Step raf u a u' := .of_step hs
    rcases hstep.awaits hawaits hkeeps with hran | ⟨hsame, hawaits', hle, -⟩
    · exact absurd (hruns ▸ hran) hopen
    · exact ⟨⟨hu.step hstep, hawaits', hsame.trans hruns⟩, hle⟩
  · rcases (Step.of_step hs).awaits hawaits hkeeps with hran | ⟨-, -, -, hlt⟩
    · exact absurd (hruns ▸ hran) hopen
    · exact hlt hturns

/-- Two tasks are registered and a frame begins; the first unregisters the second, which runs
nevertheless, and requests the next frame for itself. -/
def unregisteringRun : List (FrameAction ℕ) :=
  [.call (.schedule 0), .call (.schedule 1), .call .request, .fire 1 0, .run,
    .call (.unregister 1), .call .request, .run, .finish]

private def requestedAgain (s : Frames ℕ) : Bool :=
  decide (0 ∈ s.scheduler.tasks) && s.scheduler.frame.isSome && decide (s.runs 1 = 1)

theorem awaited_task_runs_unregistering : ∃ s, (machine true).exec {} unregisteringRun = some s ∧
    s.runs 1 = 1 ∧
    (machine true).Due (Keeps 0) Turns (fun u ↦ s.runs 0 < u.runs 0) s := by
  obtain ⟨s, hexec, hsteps, hp⟩ := Machine.exists_of_exec (M := machine true)
    (p := requestedAgain) ({} : Frames ℕ) unregisteringRun (by decide)
  simp only [requestedAgain, Bool.and_eq_true, decide_eq_true_iff] at hp
  exact ⟨s, hexec, hp.2, (awaited_task_runs ⟨_, rfl, hsteps⟩).2.2 0 hp.1.1
    (Option.isSome_iff_ne_none.mp hp.1.2)⟩

end Frames

end Synapse.Client
