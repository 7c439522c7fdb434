import Mathlib.Tactic.FieldSimp
import Mathlib.Tactic.Ring
import Synapse.Client.CanvasEngine
import Synapse.Client.Pointer
import Synapse.Transition.Along

/-!
# The viewport over time

Whatever moves a viewport, its transform can be undone, since the scale never leaves its range, and
a zoom keeps the world point under its anchor also when the scale is clamped.

A resize recentres a viewport whose translation is exactly `(0, 0)`, which is how it recognises the
first layout. But a pan can reach that translation again, and then the next resize takes away the
pan and the zoom that the user has reached. This is the only way: a view is kept through all later
resizes exactly if none of them meets that translation (`resize_keeps_view_iff`).
-/

namespace Synapse

open Transition

/-! ## Moves -/

namespace Viewport

variable (v : Viewport)

theorem toScreen_toWorld (p : Point) : v.toScreen (v.toWorld p) = p := by
  have hscale := v.scale_pos.ne'
  simp only [toScreen, toWorld, worldToScreen, screenToWorld, div_mul_cancel₀ _ hscale,
    sub_add_cancel]

theorem toWorld_toScreen (q : Point) : v.toWorld (v.toScreen q) = q := by
  have hscale := v.scale_pos.ne'
  simp only [toScreen, toWorld, worldToScreen, screenToWorld, add_sub_cancel_right,
    mul_div_cancel_right₀ _ hscale]

/-- The translation is worked out for the clamped scale. -/
theorem toScreen_zoomAround (anchor : Point) (factor : ℚ) :
    (v.zoomAround anchor factor).toScreen (v.toWorld anchor) = anchor := by
  simp only [toScreen, toWorld, worldToScreen, zoomAround, Synapse.zoomAround, add_sub_cancel]

/-- So the world point under the anchor stays there. -/
theorem toWorld_zoomAround (anchor : Point) (factor : ℚ) :
    (v.zoomAround anchor factor).toWorld anchor = v.toWorld anchor := by
  have hscreen :=
    congrArg (v.zoomAround anchor factor).toWorld (v.toScreen_zoomAround anchor factor)
  rw [toWorld_toScreen] at hscreen
  exact hscreen.symm

end Viewport

/-- What moves a viewport. -/
inductive ViewportMove
  | panBy (dx dy : ℚ)
  | setTranslation (x y : ℚ)
  | centerIfUnset (cssWidth cssHeight : ℚ)
  | zoomAround (anchor : Point) (factor : ℚ)

namespace Viewport

def apply (v : Viewport) : ViewportMove → Viewport
  | .panBy dx dy => v.panBy dx dy
  | .setTranslation x y => v.setTranslation x y
  | .centerIfUnset cssWidth cssHeight => v.centerIfUnset cssWidth cssHeight
  | .zoomAround anchor factor => v.zoomAround anchor factor

/-- Moves in turn. -/
def run (v : Viewport) (moves : List ViewportMove) : Viewport := moves.foldl apply v

end Viewport

/-- **Transforms can be undone.** After any moves the scale is in its range, a point of the screen
is found again through the world and a point of the world through the screen, and a zoom leaves the
world point under its anchor. -/
theorem viewport_moves (moves : List ViewportMove) :
    let v := Viewport.initial.run moves
    v.transform.scale ∈ Set.Icc minScale maxScale ∧
    (∀ p, v.toScreen (v.toWorld p) = p) ∧ (∀ q, v.toWorld (v.toScreen q) = q) ∧
    ∀ anchor factor,
      (v.apply (.zoomAround anchor factor)).toWorld anchor = v.toWorld anchor ∧
      (v.apply (.zoomAround anchor factor)).toScreen (v.toWorld anchor) = anchor := by
  intro v
  exact ⟨v.scale_mem, v.toScreen_toWorld, v.toWorld_toScreen, fun anchor factor ↦
    ⟨v.toWorld_zoomAround anchor factor, v.toScreen_zoomAround anchor factor⟩⟩

/-! ## Resizes -/

/-- What happens to the view of a mounted canvas: `CanvasEngine.resize`, with the size of the box it
measures, and the pans and zooms. -/
inductive ViewEvent
  | resize (width height : ℚ)
  | panBy (dx dy : ℚ)
  | setTranslation (x y : ℚ)
  | zoomAround (anchor : Point) (factor : ℚ)

/-- The moves of an event: a box without area is left alone. -/
def ViewEvent.moves : ViewEvent → List ViewportMove
  | .resize width height => if width = 0 ∨ height = 0 then [] else [.centerIfUnset width height]
  | .panBy dx dy => [.panBy dx dy]
  | .setTranslation x y => [.setTranslation x y]
  | .zoomAround anchor factor => [.zoomAround anchor factor]

/-- A viewport, and what resizes have done to it. -/
structure View where
  viewport : Viewport := .initial
  /-- Whether there has been a resize to a box with an area. -/
  laidOut : Bool := false
  /-- The number of resizes that have changed the transform. -/
  recentred : ℕ := 0

namespace View

/-- An event moves the viewport; the rest is kept for the record. -/
def onEvent (s : View) (e : ViewEvent) : View :=
  let viewport := s.viewport.run e.moves
  match e with
  | .resize width height =>
    { viewport
      laidOut := s.laidOut || decide (width ≠ 0 ∧ height ≠ 0)
      recentred :=
        if viewport.transform = s.viewport.transform then s.recentred else s.recentred + 1 }
  | _ => { s with viewport }

/-- Events in turn. -/
def run (s : View) (events : List ViewEvent) : View := events.foldl onEvent s

/-- A resize after the first layout leaves the view as it is. -/
def Keeps (s : View) : ViewEvent → Prop
  | .resize width height =>
    s.laidOut = true → (s.onEvent (.resize width height)).viewport.transform = s.viewport.transform
  | _ => True

/-- A resize after the first layout does not find the translation `(0, 0)`. -/
def AwayFromOrigin (s : View) : ViewEvent → Prop
  | .resize width height =>
    s.laidOut = true → width ≠ 0 → height ≠ 0 →
      ¬ (s.viewport.transform.x = 0 ∧ s.viewport.transform.y = 0)
  | _ => True

variable {s : View} {e : ViewEvent} {events : List ViewEvent} {width height : ℚ}

theorem transform_resize : (s.onEvent (.resize width height)).viewport.transform
    = if (width ≠ 0 ∧ height ≠ 0) ∧ s.viewport.transform.x = 0 ∧ s.viewport.transform.y = 0 then
        ⟨width / 2, height / 2, 1⟩
      else s.viewport.transform := by
  by_cases hbox : width = 0 ∨ height = 0
  · rw [if_neg fun h ↦ hbox.elim h.1.1 h.1.2]
    simp only [onEvent, ViewEvent.moves, if_pos hbox]
    rfl
  · obtain ⟨hwidth, hheight⟩ := not_or.mp hbox
    simp only [onEvent, ViewEvent.moves, if_neg hbox, Viewport.run, List.foldl_cons,
      List.foldl_nil, Viewport.apply, Viewport.centerIfUnset]
    by_cases horigin : s.viewport.transform.x = 0 ∧ s.viewport.transform.y = 0
    · rw [if_pos horigin, if_pos ⟨⟨hwidth, hheight⟩, horigin⟩]
    · rw [if_neg horigin, if_neg fun h ↦ horigin h.2]

/-- A resize takes the view away exactly if it finds the translation `(0, 0)`. -/
theorem keeps_iff : s.Keeps e ↔ s.AwayFromOrigin e := by
  cases e with
  | panBy => exact Iff.rfl
  | setTranslation => exact Iff.rfl
  | zoomAround => exact Iff.rfl
  | resize width height =>
    refine forall_congr' fun _ ↦ ?_
    rw [transform_resize]
    constructor
    · intro hkeeps hwidth hheight horigin
      rw [if_pos ⟨⟨hwidth, hheight⟩, horigin⟩] at hkeeps
      have hx := congrArg Transform.x hkeeps
      rw [horigin.1] at hx
      exact hwidth (by linarith)
    · intro haway
      exact if_neg fun h ↦ haway h.1.1 h.1.2 h.2

/-- Before the first layout nothing is recentred, and in all at most once. -/
def Tidy (s : View) : Prop := (s.laidOut = false → s.recentred = 0) ∧ s.recentred ≤ 1

theorem Tidy.onEvent (h : s.Tidy) (hkeeps : s.Keeps e) : (s.onEvent e).Tidy := by
  cases e with
  | panBy => exact h
  | setTranslation => exact h
  | zoomAround => exact h
  | resize width height =>
    by_cases hsame : (s.onEvent (.resize width height)).viewport.transform = s.viewport.transform
    · have hrecentred : (s.onEvent (.resize width height)).recentred = s.recentred := if_pos hsame
      refine ⟨fun hlaid ↦ ?_, hrecentred.symm ▸ h.2⟩
      rw [hrecentred]
      exact h.1 (Bool.or_eq_false_iff.mp hlaid).1
    · -- then it is the first layout
      have hlaid : s.laidOut = false := by
        cases hlaid : s.laidOut with
        | false => rfl
        | true => exact absurd (hkeeps hlaid) hsame
      have hrecentred : (s.onEvent (.resize width height)).recentred = s.recentred + 1 :=
        if_neg hsame
      have hbox : width ≠ 0 ∧ height ≠ 0 := by
        by_contra hbox
        exact hsame (transform_resize.trans (if_neg fun h ↦ hbox h.1))
      rw [h.1 hlaid] at hrecentred
      refine ⟨fun hlaid' ↦ ?_, hrecentred.le⟩
      have hlast := (Bool.or_eq_false_iff.mp hlaid').2
      exact absurd hbox (of_decide_eq_false hlast)

/-! ## Gestures and the engine -/

theorem viewport_onEvent (s : View) (e : ViewEvent) :
    (s.onEvent e).viewport = s.viewport.run e.moves := by
  cases e <;> rfl

/-- The viewport of a view has made the moves of the events. -/
theorem viewport_run (s : View) (events : List ViewEvent) :
    (s.run events).viewport = s.viewport.run (events.flatMap ViewEvent.moves) := by
  induction events generalizing s with
  | nil => rfl
  | cons e events ih =>
    have hrun : s.run (e :: events) = (s.onEvent e).run events := rfl
    rw [hrun, ih, viewport_onEvent, List.flatMap_cons, Viewport.run, Viewport.run, Viewport.run,
      List.foldl_append]

theorem run_concat (s : View) (events : List ViewEvent) (e : ViewEvent) :
    s.run (events ++ [e]) = (s.run events).onEvent e := by
  rw [run, List.foldl_append]
  rfl

theorem viewport_step {c c' : Canvas} {g : Gesture} (h : Canvas.machine.step c g = some c') :
    c'.viewport = c.viewport ∨ ∃ e : ViewEvent, c'.viewport = c.viewport.run e.moves := by
  cases g with
  | down e =>
    cases h
    rw [Canvas.onDown]
    split_ifs
    · exact Or.inl rfl
    · exact Or.inl rfl
  | move e =>
    cases h
    rw [Canvas.onMove]
    split
    · exact Or.inr ⟨.setTranslation _ _, rfl⟩
    · rw [Canvas.draw]
      split_ifs
      · exact Or.inl rfl
      · exact Or.inl rfl
  | wheel anchor deltaY =>
    cases h
    exact Or.inr ⟨.zoomAround anchor _, rfl⟩
  | resize width height =>
    cases h
    refine Or.inr ⟨.resize width height, ?_⟩
    rw [Canvas.resize, ViewEvent.moves]
    split_ifs <;> rfl
  | setColor color =>
    simp only [Canvas.machine, Canvas.step] at h
    split_ifs at h
    cases h
    exact Or.inl rfl
  | up => cases h; exact Or.inl rfl
  | attach => cases h; exact Or.inl rfl
  | setTool tool => cases h; exact Or.inl rfl
  | cycleWidth up => cases h; exact Or.inl rfl
  | setPaletteOpen paletteOpen => cases h; exact Or.inl rfl

/-- What the user does with the pointer is a sequence of events. -/
theorem exists_events {c : Canvas} (h : Canvas.machine.Reaches Machine.anyStep c) :
    ∃ events, c.viewport = (View.run {} events).viewport := by
  refine h.invariant (P := fun c ↦ ∃ events, c.viewport = (View.run {} events).viewport) ?_ ?_
  · rintro c rfl
    exact ⟨[], rfl⟩
  · rintro c g c' ⟨events, hevents⟩ - hstep
    rcases viewport_step hstep with hsame | ⟨e, he⟩
    · exact ⟨events, hsame.trans hevents⟩
    · exact ⟨events ++ [e], by rw [run_concat, viewport_onEvent, he, hevents]⟩

theorem viewport_resize {engine : CanvasEngine} {layout : Layout} {width height : ℚ}
    (hcanvas : engine.canvas.isSome) (hbox : layout.box = some (width, height)) :
    (engine.resize layout).viewport
      = engine.viewport.run (ViewEvent.resize width height).moves := by
  obtain ⟨canvas, hcanvas⟩ := Option.isSome_iff_exists.mp hcanvas
  rw [CanvasEngine.resize, hcanvas, hbox, ViewEvent.moves]
  dsimp only
  split_ifs <;> rfl

end View

/-- **When resizes keep the view.** In a sequence of resizes, pans and zooms at most one resize
changes the transform and none after the first layout does, exactly if no resize after the first
layout finds the translation `(0, 0)`. -/
theorem resize_keeps_view_iff (events : List ViewEvent) :
    (Along View.onEvent View.Keeps {} events ∧ (View.run {} events).recentred ≤ 1) ↔
      Along View.onEvent View.AwayFromOrigin {} events := by
  have hcongr : Along View.onEvent View.Keeps {} events
      ↔ Along View.onEvent View.AwayFromOrigin {} events := Along.congr fun _ _ ↦ View.keeps_iff
  refine ⟨fun h ↦ hcongr.mp h.1, fun h ↦ ⟨hcongr.mpr h, ?_⟩⟩
  have hstart : View.Tidy {} := ⟨fun _ ↦ rfl, Nat.zero_le _⟩
  exact ((hcongr.mpr h).invariant (fun _ _ hs hkeeps ↦ hs.onEvent hkeeps) hstart).2

/-- A canvas is laid out, zoomed in, and dragged until its origin is in the corner. -/
private def cornerRun : List ViewEvent :=
  [.resize 800 600, .zoomAround ⟨400, 300⟩ 2,
    .setTranslation (400 + (100 - 500)) (300 + (100 - 400)), .resize 1024 768]

/-- The pan of this run is a drag with the middle button. -/
example : (Canvas.machine.exec {} [.resize 800 600, .down { button := 1, screen := ⟨500, 400⟩ },
    .move { screen := ⟨100, 100⟩ }, .up]).map (fun c ↦ c.viewport.transform) = some ⟨0, 0, 1⟩ := by
  decide +kernel

/-- The next resize takes the zoom and the pan away. -/
theorem view_lost_at_corner : ¬ ∀ events : List ViewEvent,
    Along View.onEvent View.Keeps {} events ∧ (View.run {} events).recentred ≤ 1 := by
  intro h
  have htwice : (View.run {} cornerRun).recentred = 2 := by decide +kernel
  have hle := (h cornerRun).2
  rw [htwice] at hle
  exact absurd hle (by decide)

end Synapse
