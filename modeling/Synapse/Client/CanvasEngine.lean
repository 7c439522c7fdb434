import Mathlib.Data.Rat.Floor
import Synapse.Client.Pointer
import Synapse.Client.Session
import Synapse.Repaint.Incremental

/-!
# The canvas engine

`CanvasEngine.ts` owns the canvas and the frame loop. What is painted is the sequence of fills and
strokes on the surface, each with the state of the drawing context it is made in; giving the canvas
a size wipes the surface and resets the context.

The context ignores a stroke style that is no CSS color, and a width that is not positive, and keeps
what it has. What the platform reads as a color is a parameter, `parseColor`, which gives the text
the color is serialized to. The fill styles of the engine are two constants, which are colors.

The cursors are elements beside the canvas, and only their requests for a frame are kept. The
scheduler is that of a browser, with `requestAnimationFrame`.
-/

open Transition Repaint

namespace Synapse

/-! ## The canvas -/

/-- The arguments of `setTransform`. -/
structure Matrix where
  a : ℚ
  b : ℚ
  c : ℚ
  d : ℚ
  e : ℚ
  f : ℚ
  deriving DecidableEq

/-- A step of a path. -/
inductive PathStep
  | moveTo (x y : ℚ)
  | lineTo (x y : ℚ)
  /-- A full circle. -/
  | arc (x y radius : ℚ)
  deriving DecidableEq

/-- The state of a 2D drawing context. -/
structure Context2D where
  transform : Matrix := ⟨1, 0, 0, 1, 0, 0⟩
  fillStyle : String := "#000000"
  /-- A color, serialized. -/
  strokeStyle : String := "#000000"
  lineWidth : {width : ℚ // 0 < width} := ⟨1, one_pos⟩
  lineCap : String := "butt"
  lineJoin : String := "miter"
  path : List PathStep := []

/-- Something painted. -/
inductive Paint
  | rect (transform : Matrix) (fillStyle : String) (x y width height : ℚ)
  | fill (transform : Matrix) (fillStyle : String) (path : List PathStep)
  | stroke (transform : Matrix) (strokeStyle : String) (lineWidth : ℚ) (lineCap lineJoin : String)
      (path : List PathStep)
  deriving DecidableEq

/-- A canvas element. -/
structure HtmlCanvas where
  width : ℕ := 300
  height : ℕ := 150
  /-- Whether it has a 2D context. -/
  has2d : Bool := true
  context : Context2D := {}
  /-- What has been painted since the surface was last wiped, the oldest first. -/
  painted : List Paint := []

namespace HtmlCanvas

variable (canvas : HtmlCanvas)

/-- Assigning a size wipes the surface and resets the context. -/
def setSize (width height : ℕ) : HtmlCanvas :=
  { canvas with width := width, height := height, context := {}, painted := [] }

def setTransform (m : Matrix) : HtmlCanvas :=
  { canvas with context := { canvas.context with transform := m } }

def setFillStyle (style : String) : HtmlCanvas :=
  { canvas with context := { canvas.context with fillStyle := style } }

/-- What is no color is ignored. -/
def setStrokeStyle (parseColor : String → Option String) (style : String) : HtmlCanvas :=
  match parseColor style with
  | some color => { canvas with context := { canvas.context with strokeStyle := color } }
  | none => canvas

/-- So is a width that is not positive. -/
def setLineWidth (width : ℚ) : HtmlCanvas :=
  if h : 0 < width then { canvas with context := { canvas.context with lineWidth := ⟨width, h⟩ } }
  else canvas

def setLineEnds (lineCap lineJoin : String) : HtmlCanvas :=
  { canvas with context := { canvas.context with lineCap := lineCap, lineJoin := lineJoin } }

def beginPath : HtmlCanvas := { canvas with context := { canvas.context with path := [] } }

def addStep (step : PathStep) : HtmlCanvas :=
  { canvas with context := { canvas.context with path := canvas.context.path ++ [step] } }

def fillRect (x y width height : ℚ) : HtmlCanvas :=
  { canvas with
    painted := canvas.painted ++
      [.rect canvas.context.transform canvas.context.fillStyle x y width height] }

def fill : HtmlCanvas :=
  { canvas with
    painted := canvas.painted ++
      [.fill canvas.context.transform canvas.context.fillStyle canvas.context.path] }

def stroke : HtmlCanvas :=
  { canvas with
    painted := canvas.painted ++
      [.stroke canvas.context.transform canvas.context.strokeStyle canvas.context.lineWidth
        canvas.context.lineCap canvas.context.lineJoin canvas.context.path] }

end HtmlCanvas

/-! ## The engine -/

/-- `rafScheduler.ts`. The tasks are all the flush of the engine, and only their number counts. -/
structure RafScheduler where
  tasks : ℕ := 0
  /-- Whether a frame has been requested. -/
  frame : Bool := false

/-- Requests that the tasks run on the next frame. -/
def RafScheduler.request (scheduler : RafScheduler) : RafScheduler :=
  if scheduler.frame then scheduler else { scheduler with frame := true }

@[simp] theorem RafScheduler.frame_request (scheduler : RafScheduler) :
    scheduler.request.frame = true := by
  unfold request
  split_ifs with h
  · exact h
  · rfl

@[simp] theorem RafScheduler.tasks_request (scheduler : RafScheduler) :
    scheduler.request.tasks = scheduler.tasks := by
  unfold request
  split_ifs <;> rfl

structure CanvasEngine where
  scene : SceneStore := []
  viewport : Viewport := .initial
  canvas : Option HtmlCanvas := none
  dpr : ℚ := 1
  scheduler : RafScheduler := {}
  dirty : Dirty := .none
  cursorsDirty : Bool := false
  /-- Index into the scene of the first segment not yet painted to the canvas. -/
  paintedCount : ℕ := 0

/-- What a measurement finds: the pixel ratio of the window, and the size of the box around the
canvas, if there is one. -/
structure Layout where
  devicePixelRatio : ℚ
  box : Option (ℚ × ℚ)

/-- The box is there and has a size. -/
def Layout.NonEmpty (layout : Layout) : Prop :=
  ∃ width height, layout.box = some (width, height) ∧ width ≠ 0 ∧ height ≠ 0

/-- `Math.round`, of a length. -/
def roundLength (x : ℚ) : ℕ := ⌊x + 1 / 2⌋.toNat

def gridSize : ℚ := 40

def gridDot : String := "rgba(255,255,255,0.07)"

/-- The values of a loop from `start` up to and without `stop`. -/
def gridLine (start stop : ℚ) : List ℚ :=
  (List.range ⌈(stop - start) / gridSize⌉.toNat).map fun i ↦ start + i * gridSize

/-- Device-pixel-ratio, pan and zoom. -/
def worldMatrix (t : Transform) (dpr : ℚ) : Matrix :=
  ⟨dpr * t.scale, 0, 0, dpr * t.scale, dpr * t.x, dpr * t.y⟩

namespace CanvasEngine

variable (engine : CanvasEngine)

/-- Requests a full repaint on the next frame. -/
def markFull : CanvasEngine :=
  { engine with dirty := .full, cursorsDirty := true, scheduler := engine.scheduler.request }

/-- Requests an incremental append-paint on the next frame. -/
def markAppend : CanvasEngine :=
  { engine with
    dirty := if engine.dirty = .none then .append else engine.dirty
    scheduler := engine.scheduler.request }

/-- Requests a frame for the cursors. -/
def markCursors : CanvasEngine :=
  { engine with cursorsDirty := true, scheduler := engine.scheduler.request }

/-- Re-measures the backing store to the parent box at the current pixel ratio. -/
def resize (layout : Layout) : CanvasEngine :=
  match engine.canvas, layout.box with
  | some canvas, some (width, height) =>
    if width = 0 ∨ height = 0 then engine
    else
      let dpr := if layout.devicePixelRatio = 0 then 1 else layout.devicePixelRatio
      let sized := canvas.setSize (roundLength (width * dpr)) (roundLength (height * dpr))
      { engine with
        dpr := dpr
        canvas := some sized
        viewport := engine.viewport.centerIfUnset width height }.markFull
  | _, _ => engine

theorem resize_cases (layout : Layout) :
    engine.resize layout = engine ∧ ¬ (engine.canvas.isSome ∧ layout.NonEmpty) ∨
      ∃ canvas width height dpr viewport, engine.canvas = some canvas ∧
        engine.resize layout = { engine with
          dpr := dpr
          canvas := some (canvas.setSize width height)
          viewport := viewport }.markFull := by
  unfold resize
  split
  · next canvas width height hcanvas hbox =>
    by_cases hempty : width = 0 ∨ height = 0
    · refine Or.inl ⟨if_pos hempty, ?_⟩
      rintro ⟨-, w, h, hwh, hw, hh⟩
      rw [hbox] at hwh
      grind
    · exact Or.inr ⟨canvas, _, _, _, _, hcanvas, if_neg hempty⟩
  · next hnone =>
    refine Or.inl ⟨rfl, ?_⟩
    rintro ⟨hcanvas, w, h, hwh, -⟩
    obtain ⟨canvas, hcanvas⟩ := Option.isSome_iff_exists.mp hcanvas
    exact hnone canvas w h hcanvas hwh

/-- Binds the canvas element and starts the frame loop. -/
def mount (canvas : HtmlCanvas) (layout : Layout) : CanvasEngine :=
  { engine with
    canvas := some canvas
    scheduler := { engine.scheduler with tasks := engine.scheduler.tasks + 1 } }.resize layout

/-- Commits one local segment and schedules it to be painted. -/
def commitLocal (segment : SceneSegment) : CanvasEngine :=
  { engine with scene := engine.scene.add segment }.markAppend

/-- Commits one remote segment and schedules it to be painted. -/
def commitRemote (segment : SceneSegment) : CanvasEngine :=
  { engine with scene := engine.scene.add segment }.markAppend

/-- Bulk-applies a history or resync batch, then fully repaints once. -/
def loadHistory (segments : List SceneSegment) : CanvasEngine :=
  { engine with scene := engine.scene.addMany segments }.markFull

/-- Clears the board and repaints the empty surface. -/
def clearBoard : CanvasEngine := { engine with scene := [] }.markFull

/-! ### Painting -/

/-- The world-space transform of the context. -/
def worldTransform : Matrix := worldMatrix engine.viewport.transform engine.dpr

/-- Paints one dot of the grid. -/
def renderDot (radius : ℚ) (canvas : HtmlCanvas) (dot : ℚ × ℚ) : HtmlCanvas :=
  (canvas.beginPath.addStep (.arc dot.1 dot.2 radius)).fill

/-- The dots of the grid, in the order in which they are painted. -/
def gridDots (t : Transform) (cssW cssH : ℚ) : List (ℚ × ℚ) :=
  let gx0 := ⌊-t.x / t.scale / gridSize⌋ * gridSize - gridSize
  let gy0 := ⌊-t.y / t.scale / gridSize⌋ * gridSize - gridSize
  let gx1 := gx0 + cssW / t.scale + gridSize * 3
  let gy1 := gy0 + cssH / t.scale + gridSize * 3
  (gridLine gx0 gx1).flatMap fun gx ↦ (gridLine gy0 gy1).map fun gy ↦ (gx, gy)

def renderGrid (canvas : HtmlCanvas) (t : Transform) (cssW cssH : ℚ) : HtmlCanvas :=
  (gridDots t cssW cssH).foldl (renderDot (1.5 / t.scale)) (canvas.setFillStyle gridDot)

section Rendering

variable (parseColor : String → Option String)

/-- Strokes one segment. -/
def strokeSegment (canvas : HtmlCanvas) (s : StrokeSegment) : HtmlCanvas :=
  ((((canvas.setStrokeStyle parseColor s.color).setLineWidth s.width).beginPath.addStep
    (.moveTo s.x0 s.y0)).addStep (.lineTo s.x1 s.y1)).stroke

def strokeSegments (canvas : HtmlCanvas) (segments : List SceneSegment) : HtmlCanvas :=
  (segments.map (·.segment)).foldl (strokeSegment parseColor)
    (canvas.setLineEnds "round" "round")

/-- Paints the background, the grid and every committed stroke. -/
def renderFull : CanvasEngine :=
  match engine.canvas with
  | none => engine
  | some canvas =>
    if canvas.has2d then
      let t := engine.viewport.transform
      let cssW := canvas.width / engine.dpr
      let cssH := canvas.height / engine.dpr
      let background :=
        ((canvas.setTransform ⟨engine.dpr, 0, 0, engine.dpr, 0, 0⟩).setFillStyle canvasBg).fillRect
          0 0 cssW cssH
      let grid := renderGrid (background.setTransform engine.worldTransform) t cssW cssH
      { engine with
        canvas := some (strokeSegments parseColor grid engine.scene)
        paintedCount := engine.scene.length }
    else engine

/-- Paints the segments that have not been painted. -/
def renderAppend : CanvasEngine :=
  match engine.canvas with
  | none => engine
  | some canvas =>
    if canvas.has2d then
      if engine.scene.length ≤ engine.paintedCount then engine
      else
        { engine with
          canvas := some (strokeSegments parseColor (canvas.setTransform engine.worldTransform)
            (engine.scene.drop engine.paintedCount))
          paintedCount := engine.scene.length }
    else engine

/-- Does the work that is due. -/
def flush : CanvasEngine :=
  let painted :=
    match engine.dirty with
    | .none => engine
    | .append => { engine with dirty := .none }.renderAppend parseColor
    | .full => { engine with dirty := .none }.renderFull parseColor
  { painted with cursorsDirty := false }

/-- A frame runs every task. -/
def tick : CanvasEngine :=
  let framed := { engine with scheduler := { engine.scheduler with frame := false } }
  (flush · parseColor)^[engine.scheduler.tasks] framed

end Rendering

end CanvasEngine

/-! ## Runs -/

/-- What happens to a mounted engine. -/
inductive EngineMove
  | commitLocal (segment : SceneSegment)
  | commitRemote (segment : SceneSegment)
  | loadHistory (segments : List SceneSegment)
  | clearBoard
  | resize (layout : Layout)
  /-- A change of the viewport, with the request to repaint that follows it. -/
  | view (viewport : Viewport)
  /-- A cursor or the users change. -/
  | cursors
  | tick

/-- An engine from when it is mounted on a canvas with a 2D context in a box with a size, whatever
has happened to it before. -/
def canvasEngine (parseColor : String → Option String) : Machine CanvasEngine EngineMove where
  init engine := ∃ (before : CanvasEngine) (canvas : HtmlCanvas) (layout : Layout),
    canvas.has2d = true ∧ layout.NonEmpty ∧ engine = before.mount canvas layout
  step engine
    | .commitLocal segment => some (engine.commitLocal segment)
    | .commitRemote segment => some (engine.commitRemote segment)
    | .loadHistory segments => some (engine.loadHistory segments)
    | .clearBoard => some engine.clearBoard
    | .resize layout => some (engine.resize layout)
    | .view viewport => some { engine with viewport := viewport }.markFull
    | .cursors => some engine.markCursors
    | .tick => if engine.scheduler.frame then some (engine.tick parseColor) else none

/-! ## What is on the surface -/

/-- Whether this is the background: nothing else is filled as a rectangle. -/
def Paint.isBackground : Paint → Bool
  | .rect .. => true
  | _ => false

/-- What has been painted from the last background fill on, which covers all before it. -/
def sinceBackground (painted : List Paint) : List Paint :=
  painted.foldl (fun shown p ↦ if p.isBackground then [p] else shown ++ [p]) []

/-- A stroked line: the transform in force, its ends, and the pen. -/
structure StrokedLine where
  transform : Matrix
  start : ℚ × ℚ
  stop : ℚ × ℚ
  color : String
  width : ℚ
  deriving DecidableEq

/-- Where the line is. -/
def StrokedLine.place (line : StrokedLine) : Matrix × (ℚ × ℚ) × (ℚ × ℚ) :=
  (line.transform, line.start, line.stop)

/-- A stroke read as a line. -/
def Paint.line? : Paint → Option StrokedLine
  | .stroke transform color width _ _ [.moveTo x0 y0, .lineTo x1 y1] =>
    some ⟨transform, (x0, y0), (x1, y1), color, width⟩
  | _ => none

namespace CanvasEngine

variable (engine : CanvasEngine)

/-- What the canvas shows. -/
def shown : List Paint :=
  match engine.canvas with
  | some canvas => sinceBackground canvas.painted
  | none => []

/-- The lines stroked since the last background fill. -/
def stroked : List StrokedLine := engine.shown.filterMap Paint.line?

end CanvasEngine

end Synapse
