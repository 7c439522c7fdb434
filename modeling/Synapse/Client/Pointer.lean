import Mathlib.Data.List.GetD
import Synapse.Client.Viewport
import Synapse.Domain
import Synapse.Transition.Machine

/-!
# Pointer input

How a pointer becomes strokes: the brush of the UI store (`client/src/stores/uiStore.ts`), the
`StrokeBuilder` that joins samples to segments, and the `PointerSampler` that listens on the canvas
and commits and sends what the builder makes. The width of a segment is divided by the scale, so
that a stroke keeps its width on the screen.

Requests to paint, pointer capture and the relayed cursor are left out.
-/

namespace Synapse

/-! ## `uiStore.ts` -/

/-- The active drawing tool. -/
inductive Tool
  | pen
  | eraser
  deriving DecidableEq

/-- The drawing intent. -/
structure UiState where
  tool : Tool := .pen
  /-- Selected pen color. -/
  color : String := "#ffffff"
  /-- Selected line width. -/
  width : ℚ := 4
  paletteOpen : Bool := false

/-- Canvas background, which the eraser paints with. -/
def canvasBg : String := "#0a0a0f"

/-- Selectable pen colors. -/
def palette : List String :=
  ["#ffffff", "#ef4444", "#f97316", "#eab308", "#22c55e", "#3b82f6", "#8b5cf6", "#ec4899",
    "#06b6d4", "#f43f5e", "#10b981", "#6366f1"]

/-- Discrete line-width steps the controls cycle through. -/
def widthSteps : List ℚ := [2, 4, 6, 10, 16]

/-- Eraser stroke width. -/
def eraserWidth : ℚ := 24

/-- A color and a desired on-screen width in pixels. -/
structure Brush where
  color : String
  width : ℚ

namespace UiState

/-- The brush actually applied to the canvas. -/
def resolveBrush (state : UiState) : Brush :=
  match state.tool with
  | .eraser => ⟨canvasBg, eraserWidth⟩
  | .pen => ⟨state.color, state.width⟩

def setTool (state : UiState) (tool : Tool) : UiState :=
  { state with tool := tool, paletteOpen := false }

def setColor (state : UiState) (color : String) : UiState :=
  { state with color := color, tool := .pen, paletteOpen := false }

def setPaletteOpen (state : UiState) (paletteOpen : Bool) : UiState :=
  { state with paletteOpen := paletteOpen }

/-- Steps the line width up or down within the allowed steps. -/
def cycleWidth (state : UiState) (up : Bool) : UiState :=
  let start : ℤ := ((widthSteps.idxOf? state.width).map Int.ofNat).getD 1
  let next := min (max (start + if up then 1 else -1) 0) (widthSteps.length - 1)
  { state with width := widthSteps.getD next.toNat 0 }

theorem width_cycleWidth_mem (state : UiState) (up : Bool) :
    (state.cycleWidth up).width ∈ widthSteps := by
  rw [cycleWidth]
  dsimp only
  generalize ((widthSteps.idxOf? state.width).map Int.ofNat).getD 1 = start
  have hlt : (min (max (start + if up then 1 else -1) 0)
      ((widthSteps.length : ℤ) - 1)).toNat < widthSteps.length := by
    have hlen : (widthSteps.length : ℤ) = 5 := rfl
    omega
  rw [List.getD_eq_getElem _ _ hlt]
  exact List.getElem_mem hlt

end UiState

/-! ## `StrokeBuilder.ts` -/

/-- The latest sample of the stroke under way, in world space. -/
structure StrokeBuilder where
  last : Option Point := none

namespace StrokeBuilder

/-- Begins a new stroke. No segment is produced yet. -/
def start (_ : StrokeBuilder) (point : Point) : StrokeBuilder := ⟨some point⟩

/-- Extends the stroke, with the segment from the previous sample unless there is none. -/
def extend (builder : StrokeBuilder) (next : Point) (brush : Brush) (scale : ℚ) :
    Option StrokeSegment × StrokeBuilder :=
  (builder.last.map fun last ↦
    ⟨last.x, last.y, next.x, next.y, brush.color, brush.width / scale⟩, ⟨some next⟩)

/-- Ends the current stroke. -/
def finish (_ : StrokeBuilder) : StrokeBuilder := ⟨none⟩

def active (builder : StrokeBuilder) : Bool := builder.last.isSome

end StrokeBuilder

/-! ## `PointerSampler.ts` -/

/-- A pointer event on the canvas; `screen` is relative to it. -/
structure PointerEvent where
  pointerId : ℕ := 0
  button : ℕ := 0
  altKey : Bool := false
  screen : Point

/-- Where a pan began, and the translation it began with. -/
structure PanOrigin where
  mx : ℚ
  my : ℚ
  tx : ℚ
  ty : ℚ

structure PointerSampler where
  builder : StrokeBuilder := {}
  panning : Bool := false
  panOrigin : Option PanOrigin := none

/-- What a client draws on and with. -/
structure Canvas where
  viewport : Viewport := .initial
  ui : UiState := {}
  sampler : PointerSampler := {}
  /-- The segments committed to the scene and sent to the server. -/
  drawn : List StrokeSegment := []

/-- What the user does, and what the layout does. -/
inductive Gesture
  | down (e : PointerEvent)
  | move (e : PointerEvent)
  | up
  | wheel (anchor : Point) (deltaY : ℚ)
  | resize (width height : ℚ)
  /-- The effect that listens on the canvas runs again, with a new sampler. -/
  | attach
  | setTool (tool : Tool)
  | setColor (color : String)
  | cycleWidth (up : Bool)
  | setPaletteOpen (paletteOpen : Bool)

namespace Canvas

/-- `onDown`: pans with the middle or right button or with Alt, draws otherwise. -/
def onDown (s : Canvas) (e : PointerEvent) : Canvas :=
  if e.button = 1 ∨ e.button = 2 ∨ e.altKey then
    let t := s.viewport.transform
    { s with
      sampler := { s.sampler with
        panning := true
        panOrigin := some ⟨e.screen.x, e.screen.y, t.x, t.y⟩ } }
  else
    { s with
      sampler := { s.sampler with
        builder := s.sampler.builder.start (s.viewport.toWorld e.screen) } }

/-- `onMove` while drawing. -/
def draw (s : Canvas) (e : PointerEvent) : Canvas :=
  if s.sampler.builder.active then
    let (segment, builder) := s.sampler.builder.extend (s.viewport.toWorld e.screen)
      s.ui.resolveBrush s.viewport.transform.scale
    { s with
      sampler := { s.sampler with builder := builder }
      drawn := s.drawn ++ segment.toList }
  else s

/-- `onMove`. -/
def onMove (s : Canvas) (e : PointerEvent) : Canvas :=
  match s.sampler.panning, s.sampler.panOrigin with
  | true, some o =>
    { s with
      viewport := s.viewport.setTranslation (o.tx + (e.screen.x - o.mx))
        (o.ty + (e.screen.y - o.my)) }
  | _, _ => s.draw e

/-- `onUp`. -/
def onUp (s : Canvas) : Canvas :=
  { s with
    sampler :=
      if s.sampler.panning then { builder := s.sampler.builder.finish }
      else { s.sampler with builder := s.sampler.builder.finish } }

/-- `onWheel`. -/
def onWheel (s : Canvas) (anchor : Point) (deltaY : ℚ) : Canvas :=
  { s with viewport := s.viewport.zoomAround anchor (if deltaY < 0 then 1.1 else 0.9) }

/-- `CanvasEngine.resize`: a box without area is left alone. -/
def resize (s : Canvas) (width height : ℚ) : Canvas :=
  if width = 0 ∨ height = 0 then s
  else { s with viewport := s.viewport.centerIfUnset width height }

/-- The toolbar offers the colors of the palette. -/
def step (s : Canvas) : Gesture → Option Canvas
  | .down e => some (s.onDown e)
  | .move e => some (s.onMove e)
  | .up => some s.onUp
  | .wheel anchor deltaY => some (s.onWheel anchor deltaY)
  | .resize width height => some (s.resize width height)
  | .attach => some { s with sampler := {} }
  | .setTool tool => some { s with ui := s.ui.setTool tool }
  | .setColor color => if color ∈ palette then some { s with ui := s.ui.setColor color } else none
  | .cycleWidth up => some { s with ui := s.ui.cycleWidth up }
  | .setPaletteOpen paletteOpen => some { s with ui := s.ui.setPaletteOpen paletteOpen }

/-- The client, from an empty canvas on. -/
def machine : Transition.Machine Canvas Gesture := ⟨fun s ↦ s = {}, step⟩

end Canvas

end Synapse
