import Synapse.Stroke.Boards

/-!
# The order of the write buffer

`append` buffers a stroke behind everything accepted before it, and a drain takes the whole buffer,
so what a buffer or a batch holds is ascending as long as nothing is put back. The `catch` of
`drainOnce` puts a batch back in front of the buffer. That is its place when the batch is the newest
one in flight. With two drains in flight, the older may fail first: the newer batch is then put back
in front of older strokes, and the buffer is out of order.

`FailsInOrder` is the condition on a failing drain, and `Step.ascending_held` shows that nothing
else matters.
-/

namespace Synapse

open Keyed Transition

namespace Instance

variable {cfg : Config} {log log' : BoardLog} {inst inst' : Instance} {a : Action}

/-- A batch that is put back is older than everything buffered since. -/
def FailsInOrder (inst : Instance) : Action → Prop
  | .drain d .fail => ∀ x ∈ inst.batch d, ∀ y ∈ inst.buffer, x.seq < y.seq
  | _ => True

instance (inst : Instance) (a : Action) : Decidable (inst.FailsInOrder a) := by
  unfold FailsInOrder
  split <;> infer_instance

/-- Whatever the instance holds is ascending. -/
def Sorted (inst : Instance) : Prop := ∀ p, Ascending PersistedStroke.seq (inst.held p)

theorem sorted_fresh : Sorted {} := fun p ↦ by cases p <;> exact List.Pairwise.nil

theorem Sorted.update (h : inst.Sorted) {xs : List PersistedStroke}
    (hxs : Ascending PersistedStroke.seq xs) (p q : Option ℕ) :
    Ascending PersistedStroke.seq (Function.update inst.held p xs q) := by
  rw [Function.update_apply]
  split_ifs
  · exact hxs
  · exact h q

theorem Sorted.update_nil (h : inst.Sorted) {xs : List PersistedStroke}
    (hxs : Ascending PersistedStroke.seq xs) (p q r : Option ℕ) :
    Ascending PersistedStroke.seq (Function.update (Function.update inst.held p xs) r [] q) := by
  rw [Function.update_apply]
  split_ifs
  · exact List.Pairwise.nil
  · exact h.update hxs p q

theorem Sorted.concat (h : inst.Sorted)
    (hahead : ∀ k ∈ inst.buffer, k.seq < inst.board.nextSeq) {k : PersistedStroke}
    (hseq : k.seq = inst.board.nextSeq) :
    Ascending PersistedStroke.seq (inst.buffer ++ [k]) := by
  refine (h none).append (List.pairwise_singleton _ _) fun x hx y hy ↦ ?_
  rw [List.mem_singleton] at hy
  rw [hy, hseq]
  exact hahead x hx

theorem Sorted.effect (h : inst.Sorted) (heffect : Effect cfg log inst a log' inst')
    (hahead : inst.resumesAppend → ∀ k ∈ inst.buffer, k.seq < inst.board.nextSeq)
    (hfails : inst.FailsInOrder a) : inst'.Sorted := by
  intro q
  cases heffect with
  | quiet hheld | ensure hheld | setSnapshot _ _ _ hheld | insert _ _ hheld
  | prune _ _ _ _ _ hheld =>
    rw [hheld]
    exact h q
  | accept k hseq hready hheld =>
    rw [hheld]
    exact h.update (h.concat (hahead hready) hseq) none q
  | capture d _ _ hheld =>
    rw [hheld]
    exact h.update_nil (h none) (some d) q none
  | acceptCapture k hseq hready _ _ hheld =>
    rw [hheld]
    exact h.update_nil (h.concat (hahead hready) hseq) _ q none
  | release d _ hheld =>
    rw [hheld]
    exact h.update List.Pairwise.nil (some d) q
  | rebuffer d hheld =>
    rw [hheld]
    exact h.update_nil ((h (some d)).append (h none) hfails) none q (some d)

/-- A batch put back in front of the buffer leaves it ascending only if it is older. -/
theorem Step.failsInOrder (h : Step cfg log inst a log' inst')
    (hbuffer : Ascending PersistedStroke.seq inst'.buffer) : inst.FailsInOrder a := by
  unfold FailsInOrder
  split
  · next d =>
    cases h
    have hsplit : Ascending PersistedStroke.seq (inst.batch d ++ inst.buffer) := hbuffer
    exact (List.pairwise_append.mp hsplit).2.2
  · trivial

end Instance

namespace World

variable {cfg : Config} {w w' : World Unit}

/-- What a restored instance numbers next comes after everything it holds. -/
theorem Owned.held_lt_nextSeq (hw : w.Owned) (hready : (w.insts ()).resumesAppend)
    (p : Option ℕ) : ∀ k ∈ (w.insts ()).held p, k.seq < (w.insts ()).board.nextSeq := by
  have hp : (w.insts ()).board.initPromise = some .fulfilled := by
    by_contra hp
    rw [Instance.resumesAppend, (hw.restored.dormant hp).ready] at hready
    cases hready
  exact fun k hk ↦ hw.restored.fulfilled hp k (hw.accounted.sound.accepted_of_held ((), p) k hk)

/-- **A step keeps the buffer ascending exactly if no batch is put back out of order.** -/
theorem Owned.sorted_step (hw : w.Owned) (hsorted : (w.insts ()).Sorted) {a : Action}
    (h : w.step (fun _ ↦ cfg) ((), a) = some w') :
    ((w.insts ()).FailsInOrder a → (w'.insts ()).Sorted) ∧
      (Ascending PersistedStroke.seq (w'.insts ()).buffer → (w.insts ()).FailsInOrder a) := by
  obtain ⟨log, inst, hstep, rfl⟩ := step_eq_some.mp h
  have hs := Instance.Step.of_step hstep
  rw [put_insts_self]
  exact ⟨hsorted.effect hs.effect fun hready ↦ hw.held_lt_nextSeq hready none, hs.failsInOrder⟩

end World

namespace StrokeService

variable {cfg : Config} {s s' : StrokeService}

/-- No board puts a batch back out of order. -/
def FailsInOrder (s : StrokeService) : ServiceAction → Prop
  | .board b a => (s.entry b).FailsInOrder a
  | .flushAll _ => True

instance (s : StrokeService) : (a : ServiceAction) → Decidable (s.FailsInOrder a)
  | .board b a => inferInstanceAs (Decidable ((s.entry b).FailsInOrder a))
  | .flushAll _ => isTrue trivial

/-- Every board is accounted for and holds nothing out of order. -/
def Sorted (s : StrokeService) : Prop := ∀ b, (s.boards b).Owned ∧ (s.entry b).Sorted

theorem Sorted.of_init (h : s.init) : s.Sorted := fun b ↦
  ⟨.of_init (h.1 b).1, by rw [entry, (h.1 b).1.2.2]; exact Instance.sorted_fresh⟩

theorem Sorted.step (h : s.Sorted) {a : ServiceAction} (hs : s.step cfg a = some s') :
    (s.FailsInOrder a → s'.Sorted) ∧
      ((∀ b, Ascending PersistedStroke.seq (s'.entry b).buffer) → s.FailsInOrder a) := by
  cases a with
  | board b a =>
    obtain ⟨w, hw, rfl⟩ := step_board_eq_some.mp hs
    have hstep := (h b).1.sorted_step (h b).2 hw
    refine ⟨fun hfails e ↦ ?_, fun hbuffer ↦ hstep.2 ?_⟩
    · by_cases he : e = b
      · subst he
        rw [entry, setBoard_boards_self]
        exact ⟨(h e).1.step hw, hstep.1 hfails⟩
      · rw [entry_setBoard_of_ne he, setBoard_boards_of_ne he]
        exact h e
    · have hb := hbuffer b
      rwa [entry_setBoard_self] at hb
  | flushAll f =>
    obtain ⟨⟨-, hidle⟩, rfl⟩ := step_flushAll_eq_some.mp hs
    refine ⟨fun _ b ↦ ?_, fun _ ↦ trivial⟩
    rw [entry, boards_flushAll]
    split_ifs with hb
    · have hw : (s.boards b).step (fun _ ↦ cfg) ((), .flush f) = some ((s.boards b).flush f) :=
        World.step_flush_eq_some.mpr ⟨hidle b hb, rfl⟩
      exact ⟨(h b).1.step hw, ((h b).1.sorted_step (h b).2 hw).1 trivial⟩
    · exact h b

/-- **The buffers stay ascending exactly as long as batches fail in order.** In every run in which
a batch that is put back is older than everything buffered since, every buffer is ascending, and the
first batch that is not older ends that. -/
theorem buffers_ascending_iff (h : (machine cfg).Reaches FailsInOrder s) :
    (∀ b, Ascending PersistedStroke.seq (s.entry b).buffer) ∧ ∀ a s', s.step cfg a = some s' →
      ((∀ b, Ascending PersistedStroke.seq (s'.entry b).buffer) ↔ s.FailsInOrder a) := by
  have hsorted : s.Sorted :=
    h.invariant (fun _ ↦ .of_init) fun _ _ _ hu hok hs ↦ (hu.step hs).1 hok
  refine ⟨fun b ↦ (hsorted b).2 none, fun a s' hs ↦ ⟨(hsorted.step hs).2, fun hok b ↦ ?_⟩⟩
  exact ((hsorted.step hs).1 hok b).2 none

/-- Two strokes are in flight in two batches. -/
def twoBatchesRun : List Action :=
  sampleRestore ++ [.resume "a" 5 0, .append 1 "ada" sampleSegment, .resume "b" 6 1]

/-- The newer batch fails first. -/
theorem buffers_ascending_twoBatches : ∃ s,
    (machine (sampleConfig 1 9)).exec start
      (onBoard "board-1" (twoBatchesRun ++ [.drain 1 .fail, .drain 0 .fail])) = some s ∧
    ∀ b, Ascending PersistedStroke.seq (s.entry b).buffer := by
  obtain ⟨s, hexec, hsteps⟩ := Machine.exists_of_guarded start
    (M := machine (sampleConfig 1 9))
    (onBoard "board-1" (twoBatchesRun ++ [.drain 1 .fail, .drain 0 .fail]))
    (show Option.isSome (((machine (sampleConfig 1 9)).guarded FailsInOrder).exec _ _) = true by
      decide +kernel)
  exact ⟨s, hexec, (buffers_ascending_iff ⟨_, init_startOver _, hsteps⟩).1⟩

private def outOfOrder (s : StrokeService) : Bool :=
  decide ((s.entry "board-1").buffer.map PersistedStroke.seq = [2, 1])

/-- The older batch fails first. -/
theorem buffer_out_of_order : ∃ s, (machine (sampleConfig 1 9)).Reaches Machine.anyStep s ∧
    ¬ Ascending PersistedStroke.seq (s.entry "board-1").buffer := by
  obtain ⟨s, -, hsteps, hp⟩ := Machine.exists_of_exec start
    (M := machine (sampleConfig 1 9)) (p := outOfOrder)
    (onBoard "board-1" (twoBatchesRun ++ [.drain 0 .fail, .drain 1 .fail])) (by decide +kernel)
  refine ⟨s, ⟨_, init_startOver _, hsteps⟩, fun hascending ↦ ?_⟩
  have hmap : ((s.entry "board-1").buffer.map PersistedStroke.seq).Pairwise (· < ·) :=
    List.pairwise_map.mpr hascending
  rw [of_decide_eq_true hp] at hmap
  revert hmap
  decide

end StrokeService

end Synapse
