import Synapse.Client.CanvasEngine
import Synapse.Wire.Schemas

/-!
# What the canvas shows

The engine is an incremental board: its environment is the viewport, the pixel ratio and the size of
the surface, its pen is the stroke style and the width of the context, and its surface is what has
been painted since the last background fill. Every operation of the engine is a change of the board,
and a frame that runs the flush more than once does no more than one that runs it once.

A segment whose color the canvas does not take is stroked in whatever color the pen has, and this
may be another one the next time.
-/

open Transition Repaint

namespace Synapse

/-! ## The painter -/

/-- What a repaint depends on besides the pen and the scene. -/
structure PaintFrame where
  transform : Transform
  dpr : ℚ
  width : ℕ
  height : ℕ

/-- What a segment sets of a context. -/
structure Pen where
  color : String
  width : {width : ℚ // 0 < width}

def Context2D.pen (context : Context2D) : Pen := ⟨context.strokeStyle, context.lineWidth⟩

/-- A segment sets its color and its width, unless the canvas does not take them. -/
def Pen.take (parseColor : String → Option String) (pen : Pen) (s : StrokeSegment) : Pen where
  color := (parseColor s.color).getD pen.color
  width := if h : 0 < s.width then ⟨s.width, h⟩ else pen.width

/-- The canvas takes the color and the width of a segment. -/
def StrokeSegment.Taken (parseColor : String → Option String) (s : StrokeSegment) : Prop :=
  (parseColor s.color).isSome ∧ 0 < s.width

instance (parseColor : String → Option String) (s : StrokeSegment) :
    Decidable (s.Taken parseColor) := inferInstanceAs (Decidable (_ ∧ _))

/-- The line a segment asks for, if the canvas takes its color and its width. -/
def StrokeSegment.line? (parseColor : String → Option String) (world : Matrix)
    (s : StrokeSegment) : Option StrokedLine :=
  if 0 < s.width then
    (parseColor s.color).map fun color ↦ ⟨world, (s.x0, s.y0), (s.x1, s.y1), color, s.width⟩
  else none

/-- Where the line of a segment is. -/
def StrokeSegment.place (world : Matrix) (s : StrokeSegment) : Matrix × (ℚ × ℚ) × (ℚ × ℚ) :=
  (world, (s.x0, s.y0), (s.x1, s.y1))

/-- A dot of the grid. -/
def dotPaint (world : Matrix) (radius : ℚ) (dot : ℚ × ℚ) : Paint :=
  .fill world gridDot [.arc dot.1 dot.2 radius]

/-- A segment stroked with a pen. -/
def strokePaint (world : Matrix) (pen : Pen) (s : StrokeSegment) : Paint :=
  .stroke world pen.color pen.width "round" "round" [.moveTo s.x0 s.y0, .lineTo s.x1 s.y1]

variable (parseColor : String → Option String)

/-- The background and the grid, and a stroke for each segment. -/
def canvasPainter : Painter PaintFrame Pen SceneSegment Paint where
  ground f :=
    .rect ⟨f.dpr, 0, 0, f.dpr, 0, 0⟩ canvasBg 0 0 (f.width / f.dpr) (f.height / f.dpr) ::
      (CanvasEngine.gridDots f.transform (f.width / f.dpr) (f.height / f.dpr)).map
        (dotPaint (worldMatrix f.transform f.dpr) (1.5 / f.transform.scale))
  take pen s := pen.take parseColor s.segment
  mark f pen s := strokePaint (worldMatrix f.transform f.dpr) pen s.segment

variable {parseColor} {f : PaintFrame} {pen : Pen} {scene : List SceneSegment}

theorem filterMap_line?_full : ((canvasPainter parseColor).full f pen scene).filterMap Paint.line?
    = ((canvasPainter parseColor).marks f pen scene).filterMap Paint.line? := by
  have hground : ((canvasPainter parseColor).ground f).filterMap Paint.line? = [] := by
    refine List.filterMap_eq_nil_iff.mpr fun p hp ↦ ?_
    rcases List.mem_cons.mp hp with rfl | hdot
    · rfl
    · obtain ⟨dot, -, rfl⟩ := List.mem_map.mp hdot
      rfl
  rw [Painter.full, List.filterMap_append, hground, List.nil_append]

/-- The line of a segment stroked with a pen. -/
def Pen.line (pen : Pen) (world : Matrix) (s : StrokeSegment) : StrokedLine :=
  ⟨world, (s.x0, s.y0), (s.x1, s.y1), pen.color, pen.width⟩

theorem line?_mark (f : PaintFrame) (pen : Pen) (s : SceneSegment) :
    ((canvasPainter parseColor).mark f pen s).line?
      = some (pen.line (worldMatrix f.transform f.dpr) s.segment) := rfl

variable (parseColor f pen scene) in
theorem map_some_lines :
    (((canvasPainter parseColor).full f pen scene).filterMap Paint.line?).map some
      = ((canvasPainter parseColor).marks f pen scene).map Paint.line? := by
  rw [filterMap_line?_full]
  induction scene generalizing pen with
  | nil => rfl
  | cons s scene ih =>
    rw [Painter.marks, List.filterMap_cons_some (line?_mark _ _ _), List.map_cons, List.map_cons,
      ih, line?_mark]

theorem map_place_full :
    (((canvasPainter parseColor).full f pen scene).filterMap Paint.line?).map StrokedLine.place
      = scene.map fun s ↦ s.segment.place (worldMatrix f.transform f.dpr) := by
  refine (Option.some_injective _).list_map ?_
  have hplace : (((canvasPainter parseColor).marks f pen scene).map fun p ↦
        p.line?.map StrokedLine.place)
      = scene.map fun s ↦ some (s.segment.place (worldMatrix f.transform f.dpr)) :=
    (Painter.map_marks_iff (Q := fun _ ↦ True) fun _ _ ↦ iff_true_intro rfl).mpr fun _ _ ↦ trivial
  have hsome := congrArg (List.map (Option.map StrokedLine.place))
    (map_some_lines parseColor f pen scene)
  rw [List.map_map, List.map_map] at hsome ⊢
  exact hsome.trans hplace

theorem line?_mark_iff (s : SceneSegment) :
    ((canvasPainter parseColor).mark f ((canvasPainter parseColor).take pen s) s).line?
        = s.segment.line? parseColor (worldMatrix f.transform f.dpr) ↔
      s.segment.Taken parseColor := by
  rw [line?_mark]
  unfold StrokeSegment.line? StrokeSegment.Taken
  cases hcolor : parseColor s.segment.color with
  | none => simp
  | some color =>
    by_cases hwidth : 0 < s.segment.width
    · simp [canvasPainter, Pen.line, Pen.take, hcolor, hwidth]
    · simp [hwidth]

theorem map_line?_iff :
    (((canvasPainter parseColor).full f pen scene).filterMap Paint.line?).map some
        = (scene.map fun s ↦ s.segment.line? parseColor (worldMatrix f.transform f.dpr)) ↔
      ∀ s ∈ scene, s.segment.Taken parseColor := by
  rw [map_some_lines]
  exact Painter.map_marks_iff fun pen s ↦ line?_mark_iff s

theorem StrokeSegment.Taken.take_eq {s : StrokeSegment} (h : s.Taken parseColor) (p q : Pen) :
    p.take parseColor s = q.take parseColor s := by
  obtain ⟨color, hcolor⟩ := Option.isSome_iff_exists.mp h.1
  simp [Pen.take, hcolor, h.2]

/-! ## Since the last background -/

theorem sinceBackground_append {painted added : List Paint}
    (h : ∀ p ∈ added, p.isBackground = false) :
    sinceBackground (painted ++ added) = sinceBackground painted ++ added := by
  induction added generalizing painted with
  | nil => rw [List.append_nil, List.append_nil]
  | cons p added ih =>
    have hsingle : sinceBackground (painted ++ [p]) = sinceBackground painted ++ [p] := by
      rw [sinceBackground, List.foldl_append]
      simp [h p List.mem_cons_self, sinceBackground]
    rw [← List.singleton_append, ← List.append_assoc,
      ih fun q hq ↦ h q (List.mem_cons_of_mem _ hq), hsingle, List.append_assoc]

theorem sinceBackground_append_cons {painted added : List Paint} {p : Paint}
    (hp : p.isBackground = true) (h : ∀ q ∈ added, q.isBackground = false) :
    sinceBackground (painted ++ p :: added) = p :: added := by
  have hsingle : sinceBackground (painted ++ [p]) = [p] := by
    rw [sinceBackground, List.foldl_append]
    simp [hp]
  rw [List.append_cons, sinceBackground_append h, hsingle, List.singleton_append]

theorem isBackground_of_mem_marks {p : Paint}
    (h : p ∈ (canvasPainter parseColor).marks f pen scene) : p.isBackground = false :=
  Painter.forall_mem_marks (Q := (·.isBackground = false)) (fun _ _ ↦ rfl) p h

/-- A full repaint covers all before it. -/
theorem sinceBackground_append_full (painted : List Paint) :
    sinceBackground (painted ++ (canvasPainter parseColor).full f pen scene)
      = (canvasPainter parseColor).full f pen scene := by
  refine sinceBackground_append_cons rfl fun p hp ↦ ?_
  rcases List.mem_append.mp hp with hdot | hmark
  · obtain ⟨dot, -, rfl⟩ := List.mem_map.mp hdot
    rfl
  · exact isBackground_of_mem_marks hmark

/-! ## Painting on a canvas -/

/-- A canvas on which a list is painted item by item: what the items do not change is kept, and each
adds its own paint. -/
theorem foldl_painted {γ : Type*} (paint : HtmlCanvas → γ → HtmlCanvas) (mark : γ → Paint)
    (Kept : HtmlCanvas → Prop) (hkept : ∀ c x, Kept c → Kept (paint c x))
    (hpaint : ∀ c x, Kept c → (paint c x).painted = c.painted ++ [mark x]) (xs : List γ)
    {c : HtmlCanvas} (hc : Kept c) :
    Kept (xs.foldl paint c) ∧ (xs.foldl paint c).painted = c.painted ++ xs.map mark := by
  induction xs generalizing c with
  | nil => exact ⟨hc, (List.append_nil _).symm⟩
  | cons x xs ih =>
    obtain ⟨hfold, hpainted⟩ := ih (hkept c x hc)
    refine ⟨hfold, ?_⟩
    rw [List.foldl_cons, hpainted, hpaint c x hc, List.append_assoc, List.singleton_append,
      List.map_cons]

/-- The canvas differs from `c` only in what is painted and in the styles, `world` is the transform
in force and `pen` is the pen. -/
structure Under (c : HtmlCanvas) (world : Matrix) (pen : Pen) (c' : HtmlCanvas) : Prop where
  width : c'.width = c.width
  height : c'.height = c.height
  has2d : c'.has2d = c.has2d
  transform : c'.context.transform = world
  pen : c'.context.pen = pen

variable {c c' : HtmlCanvas} {world : Matrix}

theorem strokeSegment_eq (s : StrokeSegment) : CanvasEngine.strokeSegment parseColor c s
    = { c with
        context := { c.context with
          strokeStyle := (c.context.pen.take parseColor s).color
          lineWidth := (c.context.pen.take parseColor s).width
          path := [.moveTo s.x0 s.y0, .lineTo s.x1 s.y1] }
        painted := c.painted ++
          [.stroke c.context.transform (c.context.pen.take parseColor s).color
            (c.context.pen.take parseColor s).width c.context.lineCap c.context.lineJoin
            [.moveTo s.x0 s.y0, .lineTo s.x1 s.y1]] } := by
  unfold CanvasEngine.strokeSegment HtmlCanvas.setStrokeStyle HtmlCanvas.setLineWidth Pen.take
  cases parseColor s.color with
  | none => split_ifs <;> rfl
  | some color => split_ifs <;> rfl

theorem renderDot_eq (radius : ℚ) (dot : ℚ × ℚ) : CanvasEngine.renderDot radius c dot
    = { c with
        context := { c.context with path := [.arc dot.1 dot.2 radius] }
        painted := c.painted ++
          [.fill c.context.transform c.context.fillStyle [.arc dot.1 dot.2 radius]] } := rfl

/-- Line ends are round. -/
def RoundEnds (c : HtmlCanvas) : Prop :=
  c.context.lineCap = "round" ∧ c.context.lineJoin = "round"

theorem Under.strokeSegment (h : Under c world pen c' ∧ RoundEnds c') (s : StrokeSegment) :
    Under c world (pen.take parseColor s) (CanvasEngine.strokeSegment parseColor c' s) ∧
      RoundEnds (CanvasEngine.strokeSegment parseColor c' s) := by
  rw [strokeSegment_eq, h.1.pen]
  exact ⟨⟨h.1.width, h.1.height, h.1.has2d, h.1.transform, rfl⟩, h.2⟩

theorem painted_strokeSegment (h : Under c world pen c' ∧ RoundEnds c') (s : StrokeSegment) :
    (CanvasEngine.strokeSegment parseColor c' s).painted
      = c'.painted ++ [strokePaint world (pen.take parseColor s) s] := by
  rw [strokeSegment_eq, h.1.pen, h.1.transform, h.2.1, h.2.2, strokePaint]

theorem foldl_strokeSegment (f : PaintFrame) (scene : List SceneSegment)
    (h : Under c (worldMatrix f.transform f.dpr) pen c' ∧ RoundEnds c') :
    Under c (worldMatrix f.transform f.dpr) (scene.foldl (canvasPainter parseColor).take pen)
        ((scene.map (·.segment)).foldl (CanvasEngine.strokeSegment parseColor) c') ∧
      ((scene.map (·.segment)).foldl (CanvasEngine.strokeSegment parseColor) c').painted
        = c'.painted ++ (canvasPainter parseColor).marks f pen scene := by
  induction scene generalizing c' pen with
  | nil => exact ⟨h.1, (List.append_nil _).symm⟩
  | cons s scene ih =>
    obtain ⟨hunder, hpainted⟩ := ih (Under.strokeSegment h s.segment)
    refine ⟨hunder, ?_⟩
    rw [List.map_cons, List.foldl_cons, hpainted, painted_strokeSegment h, List.append_assoc,
      List.singleton_append]
    rfl

variable (parseColor) in
theorem strokeSegments_painted (f : PaintFrame) (scene : List SceneSegment)
    (h : Under c (worldMatrix f.transform f.dpr) pen c') :
    Under c (worldMatrix f.transform f.dpr) (scene.foldl (canvasPainter parseColor).take pen)
        (CanvasEngine.strokeSegments parseColor c' scene) ∧
      (CanvasEngine.strokeSegments parseColor c' scene).painted
        = c'.painted ++ (canvasPainter parseColor).marks f pen scene := by
  have hstart : Under c (worldMatrix f.transform f.dpr) pen (c'.setLineEnds "round" "round") ∧
      RoundEnds (c'.setLineEnds "round" "round") :=
    ⟨⟨h.width, h.height, h.has2d, h.transform, h.pen⟩, rfl, rfl⟩
  exact foldl_strokeSegment f scene hstart

theorem Under.renderDot (h : Under c world pen c' ∧ c'.context.fillStyle = gridDot) (radius : ℚ)
    (dot : ℚ × ℚ) : Under c world pen (CanvasEngine.renderDot radius c' dot) ∧
      (CanvasEngine.renderDot radius c' dot).context.fillStyle = gridDot := by
  rw [renderDot_eq]
  exact ⟨⟨h.1.width, h.1.height, h.1.has2d, h.1.transform, h.1.pen⟩, h.2⟩

theorem painted_renderDot (h : Under c world pen c' ∧ c'.context.fillStyle = gridDot) (radius : ℚ)
    (dot : ℚ × ℚ) : (CanvasEngine.renderDot radius c' dot).painted
      = c'.painted ++ [dotPaint world radius dot] := by
  rw [renderDot_eq, h.1.transform, h.2, dotPaint]

theorem renderGrid_painted (h : Under c world pen c') (t : Transform) (cssW cssH : ℚ) :
    Under c world pen (CanvasEngine.renderGrid c' t cssW cssH) ∧
      (CanvasEngine.renderGrid c' t cssW cssH).painted
        = c'.painted ++
          (CanvasEngine.gridDots t cssW cssH).map (dotPaint world (1.5 / t.scale)) := by
  have hstyled : Under c world pen (c'.setFillStyle gridDot) ∧
      (c'.setFillStyle gridDot).context.fillStyle = gridDot :=
    ⟨⟨h.width, h.height, h.has2d, h.transform, h.pen⟩, rfl⟩
  obtain ⟨hunder, hpainted⟩ := foldl_painted _ _
    (fun k ↦ Under c world pen k ∧ k.context.fillStyle = gridDot)
    (fun _ dot hk ↦ Under.renderDot hk (1.5 / t.scale) dot)
    (fun _ dot hk ↦ painted_renderDot hk (1.5 / t.scale) dot)
    (CanvasEngine.gridDots t cssW cssH) hstyled
  exact ⟨hunder.1, hpainted⟩

/-! ## The engine as a board -/

namespace CanvasEngine

variable {engine : CanvasEngine}

/-- What a repaint on the canvas depends on. -/
def paintFrame (engine : CanvasEngine) (canvas : HtmlCanvas) : PaintFrame :=
  ⟨engine.viewport.transform, engine.dpr, canvas.width, canvas.height⟩

/-- The board of an engine that is mounted on `canvas`. -/
def board (engine : CanvasEngine) (canvas : HtmlCanvas) :
    Board PaintFrame Pen SceneSegment Paint where
  env := engine.paintFrame canvas
  pen := canvas.context.pen
  items := engine.scene
  dirty := engine.dirty
  painted := engine.paintedCount
  pending := engine.scheduler.frame
  shown := sinceBackground canvas.painted

/-- The engine is mounted on a canvas with a 2D context, and `b` is its board. -/
structure Shows (engine : CanvasEngine) (b : Board PaintFrame Pen SceneSegment Paint) : Prop where
  canvas : ∃ canvas, engine.canvas = some canvas ∧ canvas.has2d = true ∧ b = engine.board canvas
  tasks : 0 < engine.scheduler.tasks

variable (parseColor) in
theorem renderFull_eq (hcanvas : engine.canvas = some c) (h2d : c.has2d = true) :
    ∃ c', engine.renderFull parseColor
        = { engine with canvas := some c', paintedCount := engine.scene.length } ∧
      Under c engine.worldTransform
        (engine.scene.foldl (canvasPainter parseColor).take c.context.pen) c' ∧
      c'.painted = c.painted ++ (canvasPainter parseColor).full (engine.paintFrame c) c.context.pen
        engine.scene := by
  unfold renderFull
  rw [hcanvas]
  simp only [h2d, if_true]
  refine ⟨_, rfl, ?_⟩
  have hstart : Under c engine.worldTransform c.context.pen
      ((((c.setTransform ⟨engine.dpr, 0, 0, engine.dpr, 0, 0⟩).setFillStyle canvasBg).fillRect
        0 0 (c.width / engine.dpr) (c.height / engine.dpr)).setTransform engine.worldTransform) :=
    ⟨rfl, rfl, rfl, rfl, rfl⟩
  obtain ⟨hunder, hgrid⟩ := renderGrid_painted hstart engine.viewport.transform
    (c.width / engine.dpr) (c.height / engine.dpr)
  obtain ⟨hunder', hstrokes⟩ := strokeSegments_painted parseColor
    (engine.paintFrame c) engine.scene hunder
  refine ⟨hunder', ?_⟩
  rw [hstrokes, hgrid]
  simp [HtmlCanvas.setTransform, HtmlCanvas.fillRect, HtmlCanvas.setFillStyle, Painter.full,
    canvasPainter, paintFrame, worldTransform]

variable (parseColor) in
theorem renderAppend_eq (hcanvas : engine.canvas = some c) (h2d : c.has2d = true)
    (hlt : engine.paintedCount < engine.scene.length) :
    ∃ c', engine.renderAppend parseColor
        = { engine with canvas := some c', paintedCount := engine.scene.length } ∧
      Under c engine.worldTransform ((engine.scene.drop engine.paintedCount).foldl
        (canvasPainter parseColor).take c.context.pen) c' ∧
      c'.painted = c.painted ++ (canvasPainter parseColor).marks (engine.paintFrame c)
        c.context.pen (engine.scene.drop engine.paintedCount) := by
  unfold renderAppend
  rw [hcanvas]
  simp only [h2d, if_true, if_neg (not_le.mpr hlt)]
  have hstart : Under c engine.worldTransform c.context.pen
      (c.setTransform engine.worldTransform) := ⟨rfl, rfl, rfl, rfl, rfl⟩
  obtain ⟨hunder, hstrokes⟩ := strokeSegments_painted parseColor
    (engine.paintFrame c) (engine.scene.drop engine.paintedCount) hstart
  exact ⟨_, rfl, hunder, hstrokes⟩

variable {b : Board PaintFrame Pen SceneSegment Paint}

theorem Shows.setCursors (h : engine.Shows b) (cursorsDirty : Bool) :
    { engine with cursorsDirty := cursorsDirty }.Shows b :=
  ⟨h.canvas, h.tasks⟩

theorem board_of_under {n : ℕ} (h : Under c world pen c') :
    { engine with canvas := some c', paintedCount := n }.board c'
      = { engine.board c with
          pen := pen
          painted := n
          shown := sinceBackground c'.painted } := by
  simp [board, paintFrame, h.width, h.height, h.pen]

variable (parseColor) in
theorem Shows.renderFull (h : engine.Shows b) :
    (engine.renderFull parseColor).Shows (b.repaint (canvasPainter parseColor)) := by
  obtain ⟨c, hcanvas, h2d, rfl⟩ := h.canvas
  obtain ⟨c', hrender, hunder, hpainted⟩ := renderFull_eq parseColor hcanvas h2d
  rw [hrender]
  refine ⟨⟨c', rfl, hunder.has2d.trans h2d, ?_⟩, h.tasks⟩
  rw [board_of_under hunder, hpainted, sinceBackground_append_full]
  rfl

theorem Shows.renderAppend (h : engine.Shows b) :
    (engine.renderAppend parseColor).Shows (b.catchUp (canvasPainter parseColor)) := by
  obtain ⟨c, hcanvas, h2d, rfl⟩ := h.canvas
  by_cases hle : engine.scene.length ≤ engine.paintedCount
  · have hcatch : (engine.board c).catchUp (canvasPainter parseColor) = engine.board c := if_pos hle
    have hrender : engine.renderAppend parseColor = engine := by
      unfold CanvasEngine.renderAppend
      simp [hcanvas, h2d, hle]
    rw [hrender, hcatch]
    exact h
  · obtain ⟨c', hrender, hunder, hpainted⟩ :=
      renderAppend_eq parseColor hcanvas h2d (not_le.mp hle)
    rw [hrender]
    refine ⟨⟨c', rfl, hunder.has2d.trans h2d, ?_⟩, h.tasks⟩
    rw [board_of_under hunder, hpainted, sinceBackground_append fun _ ↦ isBackground_of_mem_marks]
    exact if_neg hle

theorem Shows.setDirty (h : engine.Shows b) (dirty : Dirty) :
    { engine with dirty := dirty }.Shows { b with dirty := dirty } := by
  obtain ⟨c, hcanvas, h2d, rfl⟩ := h.canvas
  exact ⟨⟨c, hcanvas, h2d, rfl⟩, h.tasks⟩

variable (parseColor) in
theorem Shows.flush (h : engine.Shows b) :
    (engine.flush parseColor).Shows (b.flush (canvasPainter parseColor)) := by
  have hdirty : b.dirty = engine.dirty := by
    obtain ⟨c, -, -, rfl⟩ := h.canvas
    rfl
  unfold CanvasEngine.flush Board.flush
  rw [hdirty]
  refine Shows.setCursors ?_ false
  cases engine.dirty with
  | none => exact h
  | append => exact (h.setDirty .none).renderAppend
  | full => exact (h.setDirty .none).renderFull parseColor

theorem Shows.iterate_flush (h : engine.Shows b) (n : ℕ) :
    ((CanvasEngine.flush · parseColor)^[n + 1] engine).Shows
      (b.flush (canvasPainter parseColor)) := by
  induction n with
  | zero => exact h.flush parseColor
  | succ n ih =>
    rw [Function.iterate_succ_apply']
    have hflush := ih.flush parseColor
    rwa [Board.flush_eq_self Board.dirty_flush] at hflush

variable (parseColor) in
theorem Shows.tick (h : engine.Shows b) :
    (engine.tick parseColor).Shows
      ({ b with pending := false }.flush (canvasPainter parseColor)) := by
  obtain ⟨n, hn⟩ := Nat.exists_eq_succ_of_ne_zero h.tasks.ne'
  have hframe : { engine with scheduler := { engine.scheduler with frame := false } }.Shows
      { b with pending := false } := by
    obtain ⟨c, hcanvas, h2d, rfl⟩ := h.canvas
    exact ⟨⟨c, hcanvas, h2d, rfl⟩, h.tasks⟩
  rw [CanvasEngine.tick, hn]
  exact hframe.iterate_flush n

/-! ## Every operation is a change of the board -/

/-- Whatever changes before a full repaint is requested. -/
theorem shows_markFull (hcanvas : engine.canvas = some c) (h2d : c.has2d = true)
    (htasks : 0 < engine.scheduler.tasks) : engine.markFull.Shows (engine.markFull.board c) :=
  ⟨⟨c, hcanvas, h2d, rfl⟩, by simpa [markFull] using htasks⟩

theorem Shows.reload (h : engine.Shows b) {after : CanvasEngine} (hcanvas : after.canvas = some c)
    (h2d : c.has2d = true) (hscheduler : after.scheduler = engine.scheduler)
    (hpainted : after.paintedCount = engine.paintedCount) :
    ∃ b', (Board.machine (canvasPainter parseColor)).Steps Machine.anyStep b b' ∧
      after.markFull.Shows b' := by
  have hshows := shows_markFull hcanvas h2d (hscheduler ▸ h.tasks)
  refine ⟨_, Machine.Steps.single (a := .reload (after.paintFrame c) c.context.pen
    after.scene (sinceBackground c.painted)) trivial ?_, hshows⟩
  obtain ⟨c₀, -, -, rfl⟩ := h.canvas
  simp [Board.machine, Board.step, board, markFull, paintFrame, hpainted]

theorem Shows.add (h : engine.Shows b) (segment : SceneSegment) :
    ∃ b', (Board.machine (canvasPainter parseColor)).Steps Machine.anyStep b b' ∧
      ({ engine with scene := engine.scene.add segment }.markAppend).Shows b' := by
  obtain ⟨c, hcanvas, h2d, rfl⟩ := h.canvas
  refine ⟨_, Machine.Steps.single (a := .add segment) trivial rfl, ⟨c, hcanvas, h2d, ?_⟩, ?_⟩
  · simp only [board, markAppend, RafScheduler.frame_request]
    rfl
  · simpa [markAppend] using h.tasks

theorem Shows.request (h : engine.Shows b) :
    ∃ b', (Board.machine (canvasPainter parseColor)).Steps Machine.anyStep b b' ∧
      engine.markCursors.Shows b' := by
  obtain ⟨c, hcanvas, h2d, rfl⟩ := h.canvas
  refine ⟨_, Machine.Steps.single (a := .request) trivial rfl, ⟨c, hcanvas, h2d, ?_⟩, ?_⟩
  · simp [board, markCursors, paintFrame]
  · simpa [markCursors] using h.tasks

theorem Shows.step (h : engine.Shows b) {move : EngineMove} {after : CanvasEngine}
    (hstep : (canvasEngine parseColor).step engine move = some after) :
    ∃ b', (Board.machine (canvasPainter parseColor)).Steps Machine.anyStep b b' ∧
      after.Shows b' := by
  obtain ⟨c, hcanvas, h2d, -⟩ := h.canvas
  cases move with
  | commitLocal segment | commitRemote segment =>
    cases hstep
    exact h.add segment
  | loadHistory segments =>
    cases hstep
    exact h.reload hcanvas h2d rfl rfl
  | clearBoard =>
    cases hstep
    exact h.reload hcanvas h2d rfl rfl
  | view viewport =>
    cases hstep
    exact h.reload hcanvas h2d rfl rfl
  | cursors =>
    cases hstep
    exact h.request
  | resize layout =>
    cases hstep
    rcases engine.resize_cases layout with ⟨hsame, -⟩ | ⟨c', w, ht, dpr, v, hc', hresize⟩
    · rw [hsame]
      exact ⟨b, Machine.Steps.refl, h⟩
    · rw [hresize]
      obtain rfl := Option.some_inj.mp (hcanvas.symm.trans hc')
      exact h.reload rfl h2d rfl rfl
  | tick =>
    obtain ⟨hframe, htick⟩ := Option.ite_none_right_eq_some.mp hstep
    obtain rfl := Option.some_inj.mp htick
    have hpending : b.pending = true := by
      obtain ⟨c', -, -, rfl⟩ := h.canvas
      exact hframe
    exact ⟨_, Machine.Steps.single (a := .frame) trivial (if_pos hpending), h.tick parseColor⟩

theorem exists_shows_mount (before : CanvasEngine) {canvas : HtmlCanvas} {layout : Layout}
    (h2d : canvas.has2d = true) (hlayout : layout.NonEmpty) :
    ∃ b, (Board.machine (canvasPainter parseColor)).init b ∧
      (before.mount canvas layout).Shows b := by
  rcases resize_cases { before with
      canvas := some canvas
      scheduler := { before.scheduler with tasks := before.scheduler.tasks + 1 } } layout with
    ⟨-, hempty⟩ | ⟨c', w, ht, dpr, v, hc', hresize⟩
  · exact absurd ⟨rfl, hlayout⟩ hempty
  · obtain rfl := Option.some_inj.mp hc'
    rw [mount, hresize]
    refine ⟨_, ?_, shows_markFull rfl h2d (Nat.succ_pos _)⟩
    simp [Board.machine, board, markFull]

/-! ## Runs -/

theorem exists_shows_of_reaches (h : (canvasEngine parseColor).Reaches Machine.anyStep engine) :
    ∃ b, engine.Shows b ∧ (Board.machine (canvasPainter parseColor)).Reaches Machine.anyStep b := by
  refine h.invariant (P := fun engine ↦ ∃ b, engine.Shows b ∧
    (Board.machine (canvasPainter parseColor)).Reaches Machine.anyStep b) ?_ ?_
  · rintro s ⟨before, canvas, layout, h2d, hlayout, rfl⟩
    obtain ⟨b, hinit, hshows⟩ := exists_shows_mount before h2d hlayout
    exact ⟨b, hshows, Machine.Reaches.init hinit⟩
  · rintro s move t ⟨b, hshows, hreach⟩ - hstep
    obtain ⟨b', hsteps, hshows'⟩ := hshows.step hstep
    exact ⟨b', hshows', hreach.trans hsteps⟩

/-- With nothing due, the lines stroked are those of the scene, under the current transform, with
their own colors and widths exactly if the canvas takes these. A full repaint would show the same if
it takes those of the first segment. -/
theorem shown_of_shows (h : engine.Shows b) (hb : b.Coherent (canvasPainter parseColor))
    (hdirty : engine.dirty = .none) :
    engine.stroked.map StrokedLine.place
        = (engine.scene.map fun s ↦ s.segment.place engine.worldTransform) ∧
      ((∀ s ∈ engine.scene.head?, s.segment.Taken parseColor) →
        engine.shown = (engine.renderFull parseColor).shown) ∧
      (engine.stroked.map some
          = (engine.scene.map fun s ↦ s.segment.line? parseColor engine.worldTransform) ↔
        ∀ s ∈ engine.scene, s.segment.Taken parseColor) := by
  have hfull := h.renderFull parseColor
  obtain ⟨c, hcanvas, -, rfl⟩ := h.canvas
  obtain ⟨c', hcanvas', -, hboard⟩ := hfull.canvas
  have hshown : engine.shown = (engine.board c).shown := by
    rw [CanvasEngine.shown, hcanvas]
    rfl
  obtain ⟨pen, hpen⟩ := hb.exists_shown_eq_full hdirty
  rw [stroked, hshown, hpen]
  refine ⟨map_place_full, fun hfirst ↦ ?_, map_line?_iff⟩
  have hrepaint : (engine.renderFull parseColor).shown
      = (canvasPainter parseColor).full (engine.paintFrame c) c.context.pen engine.scene := by
    rw [CanvasEngine.shown, hcanvas']
    exact (congrArg Board.shown hboard).symm
  rw [← hpen, hrepaint]
  exact hb.shown_eq_full hdirty fun s hs ↦ (hfirst s hs).take_eq

end CanvasEngine

/-- In every run of a mounted engine something is due only while a frame is pending. After every
frame nothing is due, and the lines stroked since the last background fill are those of the scene,
each once, in order and under the current transform. They are stroked in the colors and widths of
their segments, and the canvas shows what a full repaint would show, exactly if the canvas takes the
color and the width of every segment of the scene; for the repaint, those of the first are
enough. -/
theorem painted_as_repainted_iff {parseColor : String → Option String} {engine : CanvasEngine}
    (h : (canvasEngine parseColor).Reaches Machine.anyStep engine) :
    (engine.dirty ≠ .none → engine.scheduler.frame = true) ∧
      ∀ after, (canvasEngine parseColor).step engine .tick = some after →
        after.dirty = .none ∧
        after.stroked.map StrokedLine.place
          = (after.scene.map fun s ↦ s.segment.place after.worldTransform) ∧
        ((∀ s ∈ engine.scene.head?, s.segment.Taken parseColor) →
          after.shown = (after.renderFull parseColor).shown) ∧
        (after.stroked.map some
              = (after.scene.map fun s ↦ s.segment.line? parseColor after.worldTransform) ∧
            after.shown = (after.renderFull parseColor).shown ↔
          ∀ s ∈ engine.scene, s.segment.Taken parseColor) := by
  obtain ⟨b, hshows, hreach⟩ := CanvasEngine.exists_shows_of_reaches h
  have hcoherent := Board.coherent_of_reaches hreach
  constructor
  · obtain ⟨c, -, -, rfl⟩ := hshows.canvas
    exact hcoherent.pending
  intro after hstep
  obtain ⟨-, htick⟩ := Option.ite_none_right_eq_some.mp hstep
  obtain rfl := Option.some_inj.mp htick
  have hshows' := hshows.tick parseColor
  have hframe : ({ b with pending := false } : Board _ _ _ _).Faithful
      (canvasPainter parseColor) := ⟨hcoherent.painted, hcoherent.shown, hcoherent.complete⟩
  obtain ⟨pen, hpen⟩ := hframe.flush_eq
  rw [hpen] at hshows'
  have hcoherent' := Board.coherent_settled (P := canvasPainter parseColor)
    { b with pending := false } pen
  have hboard : (engine.tick parseColor).dirty = .none ∧
      (engine.tick parseColor).scene = engine.scene := by
    obtain ⟨c, -, -, hboard⟩ := hshows'.canvas
    obtain ⟨c₀, -, -, rfl⟩ := hshows.canvas
    exact ⟨(congrArg Board.dirty hboard).symm, (congrArg Board.items hboard).symm⟩
  obtain ⟨hplaces, hrepaint, hlines⟩ :=
    CanvasEngine.shown_of_shows hshows' hcoherent' hboard.1
  rw [hboard.2] at hrepaint
  refine ⟨hboard.1, hplaces, hrepaint, fun hexact ↦ hboard.2 ▸ hlines.mp hexact.1, fun htaken ↦
    ⟨hlines.mpr (hboard.2.symm ▸ htaken), hrepaint fun s hs ↦ htaken s (List.mem_of_head? hs)⟩⟩

/-- Colors of six digits, which are serialized as they are. -/
def sixDigits (style : String) : Option String :=
  match style.toList with
  | '#' :: digits =>
    if digits.length == 6 && digits.all "0123456789abcdef".toList.contains then some style else none
  | _ => none

def redSegment : StrokeSegment := ⟨0, 0, 10, 0, "#ef4444", 3⟩

/-- A remote stroke, a frame, another stroke, a zoom and a third one. -/
def paintedRun : List EngineMove :=
  [.commitRemote (.received { redSegment with seq := 1, userId := "ada", ts := 0, id := "a" }),
    .tick, .commitLocal (.drawn 0 redSegment), .view (Viewport.initial.zoomAround ⟨0, 0⟩ 2),
    .commitLocal (.drawn 1 { redSegment with color := "#3b82f6" })]

theorem painted_as_repainted_iff_paintedRun : ∃ engine : CanvasEngine,
    engine.scene.length = 3 ∧ engine.paintedCount = 1 ∧ engine.scheduler.frame = true ∧
      ∀ after, (canvasEngine sixDigits).step engine .tick = some after →
        after.stroked.map some
          = (after.scene.map fun s ↦ s.segment.line? sixDigits after.worldTransform) ∧
        after.shown = (after.renderFull sixDigits).shown := by
  obtain ⟨engine, -, hsteps, hp⟩ := Machine.exists_of_exec (M := canvasEngine sixDigits)
    (p := fun e ↦ decide (e.scene.length = 3 ∧ e.paintedCount = 1 ∧ e.scheduler.frame = true ∧
      ∀ s ∈ e.scene, s.segment.Taken sixDigits))
    (CanvasEngine.mount {} {} ⟨1, some (2, 2)⟩) paintedRun (by decide +kernel)
  obtain ⟨hscene, hpainted, hframe, htaken⟩ := of_decide_eq_true hp
  have hbox : Layout.NonEmpty ⟨1, some (2, 2)⟩ := ⟨2, 2, rfl, by decide, by decide⟩
  have hrun := painted_as_repainted_iff ⟨_, ⟨{}, {}, _, rfl, hbox, rfl⟩, hsteps⟩
  exact ⟨engine, hscene, hpainted, hframe, fun after hstep ↦ (hrun.2 after hstep).2.2.2.mpr htaken⟩

/-! ## A color that the canvas ignores -/

/-- Two strokes arrive, the first in a color of five digits. -/
def ignoredRun : List EngineMove :=
  [.commitRemote (.received
      { redSegment with color := "#12345", seq := 1, userId := "eve", ts := 0, id := "a" }),
    .commitRemote (.received { redSegment with seq := 2, userId := "ada", ts := 0, id := "b" })]

/-- The server lets the color pass. The canvas shows the stroke in black, and a full repaint would
show it in red. -/
theorem ignored_color_repainted : Schemas.color (some (.str "#12345")) = some "#12345" ∧
    ∃ engine after, (canvasEngine sixDigits).Reaches Machine.anyStep engine ∧
      (canvasEngine sixDigits).step engine .tick = some after ∧
      after.stroked.map StrokedLine.color = ["#000000", "#ef4444"] ∧
      (after.renderFull sixDigits).stroked.map StrokedLine.color = ["#ef4444", "#ef4444"] ∧
      after.shown ≠ (after.renderFull sixDigits).shown := by
  refine ⟨by decide, ?_⟩
  obtain ⟨engine, -, hsteps, hp⟩ := Machine.exists_of_exec (M := canvasEngine sixDigits)
    (p := fun e ↦ e.scheduler.frame &&
      decide ((e.tick sixDigits).stroked.map StrokedLine.color = ["#000000", "#ef4444"] ∧
        ((e.tick sixDigits).renderFull sixDigits).stroked.map StrokedLine.color
          = ["#ef4444", "#ef4444"]))
    (CanvasEngine.mount {} {} ⟨1, some (2, 2)⟩) ignoredRun (by decide +kernel)
  obtain ⟨hframe, hp⟩ := (Bool.and_eq_true _ _).mp hp
  obtain ⟨hshown, hrepaint⟩ := of_decide_eq_true hp
  have hbox : Layout.NonEmpty ⟨1, some (2, 2)⟩ := ⟨2, 2, rfl, by decide, by decide⟩
  refine ⟨engine, engine.tick sixDigits, ⟨_, ⟨{}, {}, _, rfl, hbox, rfl⟩, hsteps⟩, if_pos hframe,
    hshown, hrepaint, fun hsame ↦ ?_⟩
  have hlines := congrArg (fun shown : List Paint ↦
    (shown.filterMap Paint.line?).map StrokedLine.color) hsame
  have hcolors : ["#000000", "#ef4444"] = ["#ef4444", "#ef4444"] :=
    hshown.symm.trans (hlines.trans hrepaint)
  exact absurd hcolors (by decide)

end Synapse
