import Mathlib.Data.List.Chain
import Synapse.Client.Segments
import Synapse.Transition.Along

/-!
# Several fingers

The `PointerSampler` has one builder for all pointers. It does not look at which pointer an event is
from, and it is not told when a pointer is cancelled. So a segment may reach from the sample of one
finger to that of another, or of a finger that has long been lifted.

`Touches` is the canvas with the events of all pointers, and with the samples of each for the
record. The segments follow their pointers exactly as long as every segment is drawn by a move of
the pointer that was last put down to draw, and that has not been cancelled
(`segments_follow_iff`). That segments of one stroke start where the last has ended needs no
condition.
-/

namespace Synapse

open Transition

/-- Whether a gesture is of a pointer. -/
def Gesture.isPointer : Gesture → Bool
  | .down _ | .move _ | .up => true
  | _ => false

/-- Whether a gesture brings a new sampler. -/
def Gesture.isAttach : Gesture → Bool
  | .attach => true
  | _ => false

/-- The events of pointers, and the other gestures. -/
inductive TouchEvent
  | down (e : PointerEvent)
  | move (e : PointerEvent)
  | up (pointerId : ℕ)
  | cancel (pointerId : ℕ)
  | other (g : Gesture) (h : g.isPointer = false)

/-- Where a pointer was in world space at an event. -/
structure Sample where
  /-- The number of the event. -/
  number : ℕ
  point : Point
  deriving DecidableEq

/-- A segment starts where another ends. -/
def StrokeSegment.Meets (a b : StrokeSegment) : Prop := a.x1 = b.x0 ∧ a.y1 = b.y0

/-- A canvas, and the record of its pointers. -/
structure Touches where
  canvas : Canvas := {}
  /-- The number of events. -/
  time : ℕ := 0
  /-- The latest sample of each pointer that was put down to draw and is neither up nor
  cancelled. -/
  fingers : ℕ → Option Sample := fun _ ↦ none
  /-- The sample that the builder has from. -/
  anchor : Option Sample := none
  /-- The pointer last put down to draw, unless one was lifted or it was cancelled since. -/
  holder : Option ℕ := none
  /-- What was drawn since each time a pointer was put down, the latest first. -/
  strokes : List (List StrokeSegment) := []

/-- Whether a move goes to the builder of a stroke. -/
def Canvas.drawing (c : Canvas) : Bool :=
  !(c.sampler.panning && c.sampler.panOrigin.isSome) && c.sampler.builder.active

/-- Whether a pointer is put down to pan. -/
def PointerEvent.isPan (e : PointerEvent) : Prop := e.button = 1 ∨ e.button = 2 ∨ e.altKey = true

instance (e : PointerEvent) : Decidable e.isPan := inferInstanceAs (Decidable (_ ∨ _ ∨ _))

namespace Touches

variable (s : Touches)

/-- The sample of an event. -/
def sample (e : PointerEvent) : Sample := ⟨s.time, s.canvas.viewport.toWorld e.screen⟩

/-- A canvas does with an event what its listeners do; nothing listens to a cancelled pointer. -/
def step : TouchEvent → Touches
  | .down e =>
    if e.isPan then { s with canvas := s.canvas.onDown e, time := s.time + 1 }
    else
      { s with
        canvas := s.canvas.onDown e
        time := s.time + 1
        fingers := Function.update s.fingers e.pointerId (some (s.sample e))
        anchor := some (s.sample e)
        holder := some e.pointerId
        strokes := [] :: s.strokes }
  | .move e =>
    let fingers := Function.update s.fingers e.pointerId
      ((s.fingers e.pointerId).map fun _ ↦ s.sample e)
    if s.canvas.drawing then
      { s with
        canvas := s.canvas.onMove e
        time := s.time + 1
        fingers := fingers
        anchor := some (s.sample e)
        strokes := s.strokes.modifyHead
          (· ++ (s.canvas.sampler.builder.last.map fun last ↦ s.canvas.segment last e).toList) }
    else { s with canvas := s.canvas.onMove e, time := s.time + 1, fingers := fingers }
  | .up pointerId =>
    { s with
      canvas := s.canvas.onUp
      time := s.time + 1
      fingers := Function.update s.fingers pointerId none
      anchor := none
      holder := none }
  | .cancel pointerId =>
    { s with
      time := s.time + 1
      fingers := Function.update s.fingers pointerId none
      holder := if s.holder = some pointerId then none else s.holder }
  | .other g _ =>
    -- a new sampler has no stroke
    { s with
      canvas := (s.canvas.step g).getD s.canvas
      time := s.time + 1
      anchor := if g.isAttach then none else s.anchor
      holder := if g.isAttach then none else s.holder }

/-- A segment that an event draws joins two consecutive samples of a pointer that was put down to
draw and is neither up nor cancelled. -/
def Follows (event : TouchEvent) : Prop :=
  ∀ segment, (s.step event).canvas.drawn = s.canvas.drawn ++ [segment] →
    ∃ e a, event = .move e ∧ s.fingers e.pointerId = some a ∧ s.anchor = some a ∧
      (⟨segment.x0, segment.y0⟩ : Point) = a.point ∧
      (⟨segment.x1, segment.y1⟩ : Point) = (s.sample e).point

/-- A move that draws is of the pointer last put down to draw, and that has not been cancelled. -/
def Held : TouchEvent → Prop
  | .move e => s.canvas.drawing = true → s.holder = some e.pointerId
  | _ => True

end Touches

/-! ## What events do to the canvas -/

namespace Canvas

variable {c : Canvas} {e : PointerEvent}

theorem exists_last (h : c.drawing = true) :
    ∃ last, c.sampler.builder.last = some last ∧ ¬ (c.sampler.panning = true ∧
      c.sampler.panOrigin.isSome = true) := by
  rw [drawing, Bool.and_eq_true, Bool.not_eq_true'] at h
  obtain ⟨last, hlast⟩ := Option.isSome_iff_exists.mp h.2
  refine ⟨last, hlast, fun ⟨hpan, horigin⟩ ↦ ?_⟩
  rw [hpan, horigin] at h
  exact Bool.noConfusion h.1

theorem onMove_of_drawing (h : c.drawing = true) {last : Point}
    (hlast : c.sampler.builder.last = some last) :
    (c.onMove e).drawn = c.drawn ++ [c.segment last e] ∧
      (c.onMove e).sampler
        = { c.sampler with builder := ⟨some (c.viewport.toWorld e.screen)⟩ } := by
  obtain ⟨-, -, hpan⟩ := exists_last h
  have hactive : c.sampler.builder.active = true := by
    rw [StrokeBuilder.active, hlast]
    rfl
  have hdraw : c.onMove e = c.draw e := by
    rw [onMove]
    split
    · next o hpanning horigin => exact absurd ⟨hpanning, by rw [horigin]; rfl⟩ hpan
    · rfl
  rw [hdraw, draw, if_pos hactive, StrokeBuilder.extend, hlast]
  exact ⟨rfl, rfl⟩

theorem onMove_of_not_drawing (h : c.drawing = false) :
    (c.onMove e).drawn = c.drawn ∧ (c.onMove e).sampler = c.sampler := by
  rw [onMove]
  split
  · exact ⟨rfl, rfl⟩
  · next hpan =>
    have hactive : ¬ c.sampler.builder.active = true := by
      intro hactive
      rw [drawing, hactive, Bool.and_true, Bool.not_eq_false'] at h
      obtain ⟨hpanning, horigin⟩ := (Bool.and_eq_true _ _).mp h
      obtain ⟨o, ho⟩ := Option.isSome_iff_exists.mp horigin
      exact hpan o hpanning ho
    rw [draw, if_neg hactive]
    exact ⟨rfl, rfl⟩

/-- The other gestures do not draw, and only a new sampler has another stroke. -/
theorem step_other {g : Gesture} (hg : g.isPointer = false) :
    ((c.step g).getD c).drawn = c.drawn ∧
      ((c.step g).getD c).sampler = if g.isAttach then {} else c.sampler := by
  cases g with
  | down e => cases hg
  | move e => cases hg
  | up => cases hg
  | wheel anchor deltaY => exact ⟨rfl, rfl⟩
  | resize width height =>
    by_cases hbox : width = 0 ∨ height = 0 <;> simp [step, resize, hbox, Gesture.isAttach]
  | attach => exact ⟨rfl, rfl⟩
  | setTool tool => exact ⟨rfl, rfl⟩
  | setColor color =>
    by_cases hcolor : color ∈ palette <;> simp [step, hcolor, Gesture.isAttach]
  | cycleWidth up => exact ⟨rfl, rfl⟩
  | setPaletteOpen paletteOpen => exact ⟨rfl, rfl⟩

theorem onDown_of_isPan (h : e.isPan) : (c.onDown e).drawn = c.drawn ∧
    (c.onDown e).sampler.builder = c.sampler.builder ∧ (c.onDown e).sampler.panning = true ∧
    (c.onDown e).sampler.panOrigin.isSome = true := by
  unfold PointerEvent.isPan at h
  rw [onDown, if_pos h]
  exact ⟨rfl, rfl, rfl, rfl⟩

theorem onDown_of_not_isPan (h : ¬ e.isPan) : (c.onDown e).drawn = c.drawn ∧
    (c.onDown e).sampler
      = { c.sampler with builder := ⟨some (c.viewport.toWorld e.screen)⟩ } := by
  unfold PointerEvent.isPan at h
  rw [onDown, if_neg h]
  exact ⟨rfl, rfl⟩

theorem onUp_sampler : c.onUp.sampler.builder.last = none ∧
    (c.sampler.panning = c.sampler.panOrigin.isSome →
      c.onUp.sampler.panning = c.onUp.sampler.panOrigin.isSome) := by
  rw [onUp]
  by_cases hpan : c.sampler.panning = true
  · rw [if_pos hpan]
    exact ⟨rfl, fun _ ↦ rfl⟩
  · rw [if_neg hpan]
    exact ⟨rfl, id⟩

end Canvas

namespace Touches

variable {s : Touches} {event : TouchEvent} {e : PointerEvent}

/-! ## Strokes -/

/-- The record of a canvas is right: the builder has from the sample that it should, a pan has an
origin, and the segments drawn are those of the strokes, which are connected and end there. -/
structure Recorded (s : Touches) : Prop where
  last : s.canvas.sampler.builder.last = s.anchor.map Sample.point
  pan : s.canvas.sampler.panning = s.canvas.sampler.panOrigin.isSome
  drawn : s.strokes.reverse.flatten = s.canvas.drawn
  meets : ∀ stroke ∈ s.strokes, stroke.IsChain StrokeSegment.Meets
  tip : ∀ a, s.anchor = some a → ∃ stroke strokes, s.strokes = stroke :: strokes ∧
    ∀ segment ∈ stroke.getLast?, (⟨segment.x1, segment.y1⟩ : Point) = a.point

theorem Recorded.start : Recorded {} where
  last := rfl
  pan := rfl
  drawn := rfl
  meets _ h := nomatch h
  tip _ h := nomatch h

/-- A canvas that draws has a sample to draw from, and is not panning. -/
theorem Recorded.exists_anchor (h : s.Recorded) (hdrawing : s.canvas.drawing = true) :
    ∃ a, s.anchor = some a ∧ s.canvas.sampler.builder.last = some a.point ∧
      s.canvas.sampler.panning = false := by
  obtain ⟨last, hlast, hpan⟩ := Canvas.exists_last hdrawing
  have hanchor := h.last.symm.trans hlast
  obtain ⟨a, ha, rfl⟩ := Option.map_eq_some_iff.mp hanchor
  refine ⟨a, ha, hlast, ?_⟩
  cases hpanning : s.canvas.sampler.panning with
  | false => rfl
  | true => exact absurd ⟨hpanning, h.pan.symm.trans hpanning⟩ hpan

theorem Recorded.down (h : s.Recorded) (e : PointerEvent) : (s.step (.down e)).Recorded := by
  rw [step]
  by_cases hpan : e.isPan
  · rw [if_pos hpan]
    obtain ⟨hdrawn, hbuilder, hpanning, horigin⟩ := Canvas.onDown_of_isPan (c := s.canvas) hpan
    exact ⟨hbuilder ▸ h.last, hpanning.trans horigin.symm, hdrawn ▸ h.drawn, h.meets, h.tip⟩
  · rw [if_neg hpan]
    obtain ⟨hdrawn, hsampler⟩ := Canvas.onDown_of_not_isPan (c := s.canvas) hpan
    refine ⟨?_, ?_, ?_, ?_, fun a _ ↦ ⟨[], s.strokes, rfl, fun _ hmem ↦ nomatch hmem⟩⟩
    · rw [hsampler]
      rfl
    · rw [hsampler]
      exact h.pan
    · rw [hdrawn, List.reverse_cons, List.flatten_append, h.drawn]
      exact List.append_nil _
    · intro stroke hstroke
      rcases List.mem_cons.mp hstroke with rfl | hstroke
      · exact List.isChain_nil
      · exact h.meets stroke hstroke

/-- A segment that is drawn starts at the tip of the latest stroke. -/
theorem Recorded.move_of_drawing (h : s.Recorded) (hdrawing : s.canvas.drawing = true) :
    (s.step (.move e)).Recorded := by
  obtain ⟨a, ha, hlast, -⟩ := h.exists_anchor hdrawing
  obtain ⟨hdrawn, hsampler⟩ := Canvas.onMove_of_drawing (e := e) hdrawing hlast
  obtain ⟨stroke, strokes, hstrokes, htip⟩ := h.tip a ha
  have hflat := h.drawn
  rw [hstrokes, List.reverse_cons, List.flatten_append] at hflat
  have hsegment : (⟨(s.canvas.segment a.point e).x1, (s.canvas.segment a.point e).y1⟩ : Point)
      = (s.sample e).point := rfl
  rw [step, if_pos hdrawing, hlast, Option.map_some, Option.toList_some, hstrokes,
    List.modifyHead_cons]
  refine ⟨?_, ?_, ?_, ?_, ?_⟩
  · rw [hsampler]
    rfl
  · rw [hsampler]
    exact h.pan
  · rw [hdrawn, List.reverse_cons, List.flatten_append, ← hflat]
    simp
  · intro stroke' hstroke'
    rcases List.mem_cons.mp hstroke' with rfl | hstroke'
    · refine (h.meets stroke (hstrokes ▸ List.mem_cons_self)).append (List.isChain_singleton _) ?_
      intro seg hseg seg' hseg'
      rw [List.head?_singleton, Option.mem_some_iff] at hseg'
      have htip' := htip seg hseg
      rw [← hseg']
      exact ⟨congrArg Point.x htip', congrArg Point.y htip'⟩
    · exact h.meets stroke' (hstrokes ▸ List.mem_cons_of_mem _ hstroke')
  · rintro a' ha'
    refine ⟨_, _, rfl, fun segment hmem ↦ ?_⟩
    rw [List.getLast?_concat, Option.mem_some_iff] at hmem
    rw [← hmem, ← Option.some_inj.mp ha']
    exact hsegment

theorem Recorded.step (h : s.Recorded) (event : TouchEvent) : (s.step event).Recorded := by
  cases event with
  | down e => exact h.down e
  | move e =>
    cases hdrawing : s.canvas.drawing with
    | true => exact h.move_of_drawing hdrawing
    | false =>
      obtain ⟨hdrawn, hsampler⟩ := Canvas.onMove_of_not_drawing (e := e) hdrawing
      rw [Touches.step, if_neg (by rw [hdrawing]; exact Bool.false_ne_true)]
      exact ⟨hsampler ▸ h.last, hsampler ▸ h.pan, hdrawn ▸ h.drawn, h.meets, h.tip⟩
  | up pointerId =>
    obtain ⟨hlast, hpan⟩ := Canvas.onUp_sampler (c := s.canvas)
    exact ⟨hlast, hpan h.pan, h.drawn, h.meets, fun _ ha ↦ nomatch ha⟩
  | cancel pointerId => exact ⟨h.last, h.pan, h.drawn, h.meets, h.tip⟩
  | other g hg =>
    obtain ⟨hdrawn, hsampler⟩ := Canvas.step_other (c := s.canvas) hg
    cases hattach : g.isAttach with
    | true =>
      rw [hattach, if_pos rfl] at hsampler
      simp only [Touches.step, hattach, if_true]
      exact ⟨hsampler ▸ rfl, hsampler ▸ rfl, hdrawn ▸ h.drawn, h.meets, fun _ ha ↦ nomatch ha⟩
    | false =>
      rw [hattach, if_neg Bool.false_ne_true] at hsampler
      simp only [Touches.step, hattach, Bool.false_eq_true, if_false]
      exact ⟨hsampler ▸ h.last, hsampler ▸ h.pan, hdrawn ▸ h.drawn, h.meets, h.tip⟩

/-! ## Pointers -/

/-- The record of the pointers as long as every segment is drawn by the one that holds the
stroke: its latest sample is the one that the builder has from, and no other pointer's is. -/
structure Owned (s : Touches) : Prop extends s.Recorded where
  held : s.canvas.sampler.panning = false → ∀ p, s.holder = some p → s.fingers p = s.anchor
  own : ∀ p a, s.fingers p = some a → s.anchor = some a → s.holder = some p
  recent : ∀ p a, s.fingers p = some a → a.number < s.time
  anchored : ∀ a, s.anchor = some a → a.number < s.time

theorem Owned.start : Owned {} where
  toRecorded := .start
  held _ _ h := nomatch h
  own _ _ h := nomatch h
  recent _ _ h := nomatch h
  anchored _ h := nomatch h

/-- A sample of a pointer is an old one of it, or is that of the event. -/
theorem fingers_update {p q : ℕ} {a : Sample} {new : Option Sample}
    (h : Function.update s.fingers p new q = some a) :
    (q = p ∧ new = some a) ∨ (q ≠ p ∧ s.fingers q = some a) := by
  by_cases hq : q = p
  · rw [hq, Function.update_self] at h
    exact Or.inl ⟨hq, h⟩
  · rw [Function.update_of_ne hq] at h
    exact Or.inr ⟨hq, h⟩

theorem Owned.down_of_isPan (h : s.Owned) (hpan : e.isPan) : (s.step (.down e)).Owned := by
  have hrecorded := h.toRecorded.step (.down e)
  rw [Touches.step, if_pos hpan] at hrecorded ⊢
  obtain ⟨-, -, hpanning, -⟩ := Canvas.onDown_of_isPan (c := s.canvas) hpan
  refine ⟨hrecorded, fun hfalse ↦ ?_, h.own,
    fun p a ha ↦ (h.recent p a ha).trans_le (Nat.le_succ _),
    fun a ha ↦ (h.anchored a ha).trans_le (Nat.le_succ _)⟩
  exact Bool.noConfusion (hpanning.symm.trans hfalse)

theorem Owned.ne_sample (h : s.Owned) {p : ℕ} {a : Sample} (ha : s.fingers p = some a) :
    a ≠ s.sample e := by
  rintro rfl
  exact lt_irrefl _ (h.recent p _ ha)

theorem Owned.down_of_not_isPan (h : s.Owned) (hpan : ¬ e.isPan) : (s.step (.down e)).Owned := by
  have hrecorded := h.toRecorded.step (.down e)
  rw [Touches.step, if_neg hpan] at hrecorded ⊢
  refine ⟨hrecorded, fun _ p hp ↦ ?_, fun p a ha hanchor ↦ ?_, fun p a ha ↦ ?_, fun a ha ↦ ?_⟩
  · obtain rfl := Option.some_inj.mp hp
    exact Function.update_self _ _ _
  · rcases fingers_update ha with ⟨rfl, -⟩ | ⟨-, hold⟩
    · rfl
    · exact absurd (Option.some_inj.mp hanchor).symm (h.ne_sample hold)
  · rcases fingers_update ha with ⟨-, hnew⟩ | ⟨-, hold⟩
    · rw [← Option.some_inj.mp hnew]
      exact Nat.lt_succ_self _
    · exact (h.recent p a hold).trans_le (Nat.le_succ _)
  · rw [← Option.some_inj.mp ha]
    exact Nat.lt_succ_self _

/-- The holder goes on with its stroke. -/
theorem Owned.move_of_drawing (h : s.Owned) (hdrawing : s.canvas.drawing = true)
    (hheld : s.holder = some e.pointerId) : (s.step (.move e)).Owned := by
  obtain ⟨a₀, ha₀, -, hpanning⟩ := h.exists_anchor hdrawing
  have hlatest : s.fingers e.pointerId = some a₀ := (h.held hpanning _ hheld).trans ha₀
  have hrecorded := h.toRecorded.step (.move e)
  rw [Touches.step, if_pos hdrawing, hlatest, Option.map_some] at hrecorded ⊢
  refine ⟨hrecorded, fun _ p hp ↦ ?_, fun p a ha hanchor ↦ ?_, fun p a ha ↦ ?_, fun a ha ↦ ?_⟩
  · obtain rfl : e.pointerId = p := Option.some_inj.mp (hheld.symm.trans hp)
    exact Function.update_self _ _ _
  · rcases fingers_update ha with ⟨rfl, -⟩ | ⟨-, hold⟩
    · exact hheld
    · exact absurd (Option.some_inj.mp hanchor).symm (h.ne_sample hold)
  · rcases fingers_update ha with ⟨-, hnew⟩ | ⟨-, hold⟩
    · rw [← Option.some_inj.mp hnew]
      exact Nat.lt_succ_self _
    · exact (h.recent p a hold).trans_le (Nat.le_succ _)
  · rw [← Option.some_inj.mp ha]
    exact Nat.lt_succ_self _

/-- A move that does not draw is of no stroke, unless the canvas pans. -/
theorem Owned.move_of_not_drawing (h : s.Owned) (hdrawing : s.canvas.drawing = false) :
    (s.step (.move e)).Owned := by
  have hrecorded := h.toRecorded.step (.move e)
  obtain ⟨-, hsampler⟩ := Canvas.onMove_of_not_drawing (e := e) hdrawing
  rw [Touches.step, if_neg (by rw [hdrawing]; exact Bool.false_ne_true)] at hrecorded ⊢
  refine ⟨hrecorded, fun hpanning p hp ↦ ?_, fun p a ha hanchor ↦ ?_, fun p a ha ↦ ?_,
    fun a ha ↦ (h.anchored a ha).trans_le (Nat.le_succ _)⟩
  · dsimp only at hpanning hp ⊢
    rw [hsampler] at hpanning
    have hlatest := h.held hpanning p hp
    have hnone : s.anchor = none := by
      rw [Canvas.drawing, hpanning, Bool.false_and, Bool.not_false, Bool.true_and,
        StrokeBuilder.active, h.last, Option.isSome_map] at hdrawing
      exact Option.not_isSome_iff_eq_none.mp (by rw [hdrawing]; exact Bool.false_ne_true)
    rw [hnone] at hlatest ⊢
    by_cases hpe : p = e.pointerId
    · rw [← hpe, Function.update_self, hlatest]
      rfl
    · rwa [Function.update_of_ne hpe]
  · rcases fingers_update ha with ⟨-, hnew⟩ | ⟨-, hold⟩
    · obtain ⟨b, -, rfl⟩ := Option.map_eq_some_iff.mp hnew
      exact absurd (h.anchored _ hanchor) (lt_irrefl _)
    · exact h.own p a hold hanchor
  · rcases fingers_update ha with ⟨-, hnew⟩ | ⟨-, hold⟩
    · obtain ⟨b, -, rfl⟩ := Option.map_eq_some_iff.mp hnew
      exact Nat.lt_succ_self _
    · exact (h.recent p a hold).trans_le (Nat.le_succ _)

theorem Owned.up (h : s.Owned) (pointerId : ℕ) : (s.step (.up pointerId)).Owned := by
  refine ⟨h.toRecorded.step _, fun _ _ hp ↦ (nomatch hp), fun _ _ _ ha ↦ (nomatch ha),
    fun p a ha ↦ ?_, fun _ ha ↦ nomatch ha⟩
  rcases fingers_update ha with ⟨-, hnew⟩ | ⟨-, hold⟩
  · cases hnew
  · exact (h.recent p a hold).trans_le (Nat.le_succ _)

theorem Owned.cancel (h : s.Owned) (pointerId : ℕ) : (s.step (.cancel pointerId)).Owned := by
  refine ⟨h.toRecorded.step _, fun hpanning p hp ↦ ?_, fun p a ha hanchor ↦ ?_, fun p a ha ↦ ?_,
    fun a ha ↦ (h.anchored a ha).trans_le (Nat.le_succ _)⟩
  · simp only [Touches.step] at hpanning hp ⊢
    split_ifs at hp with hholder
    have hne : p ≠ pointerId := fun heq ↦ hholder (heq ▸ hp)
    rw [Function.update_of_ne hne]
    exact h.held hpanning p hp
  · rcases fingers_update ha with ⟨-, hnew⟩ | ⟨hne, hold⟩
    · cases hnew
    · have hholder := h.own p a hold hanchor
      have hother : s.holder ≠ some pointerId :=
        fun heq ↦ hne (Option.some_inj.mp (hholder.symm.trans heq))
      exact (if_neg hother).trans hholder
  · rcases fingers_update ha with ⟨-, hnew⟩ | ⟨-, hold⟩
    · cases hnew
    · exact (h.recent p a hold).trans_le (Nat.le_succ _)

theorem Owned.other (h : s.Owned) {g : Gesture} (hg : g.isPointer = false) :
    (s.step (.other g hg)).Owned := by
  have hrecorded := h.toRecorded.step (.other g hg)
  obtain ⟨-, hsampler⟩ := Canvas.step_other (c := s.canvas) hg
  have hrecent : ∀ p a, s.fingers p = some a → a.number < s.time + 1 :=
    fun p a ha ↦ (h.recent p a ha).trans_le (Nat.le_succ _)
  cases hattach : g.isAttach with
  | true =>
    simp only [Touches.step, hattach, if_true] at hrecorded ⊢
    exact ⟨hrecorded, fun _ _ hp ↦ (nomatch hp), fun _ _ _ ha ↦ (nomatch ha), hrecent,
      fun _ ha ↦ nomatch ha⟩
  | false =>
    rw [hattach, if_neg Bool.false_ne_true] at hsampler
    simp only [Touches.step, hattach, Bool.false_eq_true, if_false] at hrecorded ⊢
    exact ⟨hrecorded, fun hpanning ↦ h.held (hsampler ▸ hpanning), h.own, hrecent,
      fun a ha ↦ (h.anchored a ha).trans_le (Nat.le_succ _)⟩

theorem Owned.step (h : s.Owned) (hheld : s.Held event) : (s.step event).Owned := by
  cases event with
  | down e =>
    by_cases hpan : e.isPan
    · exact h.down_of_isPan hpan
    · exact h.down_of_not_isPan hpan
  | move e =>
    cases hdrawing : s.canvas.drawing with
    | true => exact h.move_of_drawing hdrawing (hheld hdrawing)
    | false => exact h.move_of_not_drawing hdrawing
  | up pointerId => exact h.up pointerId
  | cancel pointerId => exact h.cancel pointerId
  | other g hg => exact h.other hg

/-! ## Segments -/

theorem append_singleton_ne {α : Type*} (l : List α) (x : α) : l ≠ l ++ [x] :=
  fun h ↦ List.cons_ne_nil _ _ (List.append_right_eq_self.mp h.symm)

theorem drawn_step (hevent : ∀ e, event ≠ .move e) :
    (s.step event).canvas.drawn = s.canvas.drawn := by
  cases event with
  | down e =>
    rw [Touches.step]
    by_cases hpan : e.isPan
    · rw [if_pos hpan]
      exact (Canvas.onDown_of_isPan hpan).1
    · rw [if_neg hpan]
      exact (Canvas.onDown_of_not_isPan hpan).1
  | move e => exact absurd rfl (hevent e)
  | up pointerId => rfl
  | cancel pointerId => rfl
  | other g hg => exact (Canvas.step_other hg).1

/-- A segment follows its pointer exactly if the move is of the holder. -/
theorem Owned.follows_iff (h : s.Owned) : s.Follows event ↔ s.Held event := by
  by_cases hevent : ∃ e, event = .move e
  · obtain ⟨e, rfl⟩ := hevent
    cases hdrawing : s.canvas.drawing with
    | false =>
      have hsame : (s.step (.move e)).canvas.drawn = s.canvas.drawn := by
        rw [Touches.step, if_neg (by rw [hdrawing]; exact Bool.false_ne_true)]
        exact (Canvas.onMove_of_not_drawing hdrawing).1
      refine ⟨fun _ htrue ↦ ?_, fun _ segment hsegment ↦ ?_⟩
      · exact Bool.noConfusion (hdrawing.symm.trans htrue)
      · exact absurd (hsame.symm.trans hsegment) (append_singleton_ne _ _)
    | true =>
      obtain ⟨a₀, ha₀, hlast, hpanning⟩ := h.exists_anchor hdrawing
      have hdrawn : (s.step (.move e)).canvas.drawn
          = s.canvas.drawn ++ [s.canvas.segment a₀.point e] := by
        rw [Touches.step, if_pos hdrawing]
        exact (Canvas.onMove_of_drawing hdrawing hlast).1
      constructor
      · intro hfollows _
        obtain ⟨e', a, heq, hfinger, hanchor, -⟩ := hfollows _ hdrawn
        cases heq
        exact h.own _ a hfinger hanchor
      · intro hheld segment hsegment
        have hfinger := (h.held hpanning _ (hheld hdrawing)).trans ha₀
        obtain rfl : s.canvas.segment a₀.point e = segment :=
          List.singleton_inj.mp (List.append_cancel_left (hdrawn.symm.trans hsegment))
        exact ⟨e, a₀, rfl, hfinger, ha₀, rfl, rfl⟩
  · have hother : ∀ e, event ≠ .move e := fun e heq ↦ hevent ⟨e, heq⟩
    refine ⟨fun _ ↦ ?_, fun _ segment hsegment ↦ ?_⟩
    · cases event with
      | move e => exact absurd rfl (hother e)
      | down => trivial
      | up => trivial
      | cancel => trivial
      | other => trivial
    · exact absurd ((drawn_step hother).symm.trans hsegment) (append_singleton_ne _ _)

/-- What is drawn is strokes of segments that meet. -/
def Connected (s : Touches) : Prop :=
  s.strokes.reverse.flatten = s.canvas.drawn ∧
    ∀ stroke ∈ s.strokes, stroke.IsChain StrokeSegment.Meets

theorem connected_run (events : List TouchEvent) : (events.foldl step {}).Connected := by
  have hrecorded : (events.foldl step {}).Recorded :=
    foldl_invariant (fun _ event h ↦ h.step event) .start
  exact ⟨hrecorded.drawn, hrecorded.meets⟩

theorem reaches_canvas (events : List TouchEvent) :
    Canvas.machine.Reaches Machine.anyStep (events.foldl step {}).canvas := by
  refine foldl_invariant (I := fun s : Touches ↦ Canvas.machine.Reaches Machine.anyStep s.canvas)
    (fun s event h ↦ ?_) (Machine.Reaches.init rfl)
  cases event with
  | down e =>
    have hcanvas : (s.step (.down e)).canvas = s.canvas.onDown e := by
      rw [Touches.step]
      split_ifs <;> rfl
    rw [hcanvas]
    exact h.step (a := .down e) trivial rfl
  | move e =>
    have hcanvas : (s.step (.move e)).canvas = s.canvas.onMove e := by
      rw [Touches.step]
      split_ifs <;> rfl
    rw [hcanvas]
    exact h.step (a := .move e) trivial rfl
  | up pointerId => exact h.step (a := .up) trivial rfl
  | cancel pointerId => exact h
  | other g hg =>
    cases hstep : s.canvas.step g with
    | none =>
      have hcanvas : (s.step (.other g hg)).canvas = s.canvas := by simp [Touches.step, hstep]
      rwa [hcanvas]
    | some c =>
      have hcanvas : (s.step (.other g hg)).canvas = c := by simp [Touches.step, hstep]
      rw [hcanvas]
      exact h.step trivial hstep

end Touches

/-- **When segments follow one pointer.** In a sequence of events of any number of pointers every
segment drawn joins two consecutive samples of one pointer that was put down to draw, and those of a
stroke are connected, exactly if every move that draws is of the pointer last put down to draw, and
that has not been cancelled. -/
theorem segments_follow_iff (events : List TouchEvent) :
    (Along Touches.step Touches.Follows {} events ∧ (events.foldl Touches.step {}).Connected) ↔
      Along Touches.step Touches.Held {} events := by
  have hiff : Along Touches.step Touches.Follows {} events
      ↔ Along Touches.step Touches.Held {} events :=
    Along.iff_of_invariant (fun _ _ h ↦ h.follows_iff) (fun _ _ h hheld ↦ h.step hheld)
      Touches.Owned.start
  exact ⟨fun h ↦ hiff.mp h.1, fun h ↦ ⟨hiff.mpr h, Touches.connected_run events⟩⟩

/-- Two fingers are put down, and the first one moves. -/
private def twoFingers : List TouchEvent :=
  [.down { pointerId := 1, screen := ⟨0, 0⟩ }, .down { pointerId := 2, screen := ⟨100, 0⟩ },
    .move { pointerId := 1, screen := ⟨0, 10⟩ }]

/-- The segment starts at the second. -/
theorem segment_between_fingers : ¬ ∀ events : List TouchEvent,
    Along Touches.step Touches.Follows {} events ∧
      (events.foldl Touches.step {}).Connected := by
  intro h
  obtain ⟨-, -, hfollows, -⟩ := (h twoFingers).1
  obtain ⟨e, a, heq, hfinger, hanchor, -⟩ := hfollows _ rfl
  cases heq
  have hnumbers : (some 0 : Option ℕ) = some 1 :=
    (congrArg (Option.map Sample.number) hfinger).trans
      (congrArg (Option.map Sample.number) hanchor).symm
  exact absurd hnumbers (by decide)

end Synapse
