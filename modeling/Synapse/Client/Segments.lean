import Mathlib.Tactic.Linarith
import Synapse.Client.Pointer
import Synapse.Wire.Schemas

/-!
# What the server accepts of what is drawn

A segment is committed to the scene and sent, and nothing on the client looks at the bounds of the
server's schema. The width on the wire is the width on the screen divided by the scale, so zoomed
out far enough the eraser and the widest pen are too wide for it; and a sample far from the world
origin is out of its bounds.
-/

namespace Synapse

open Transition

/-- `StrokeSegmentSchema` accepts the segment. -/
def StrokeSegment.Accepted (seg : StrokeSegment) : Prop :=
  Schemas.strokeSegment (some seg.toJson) = some seg

/-- The point is within the bounds of the schema. -/
def Point.InBounds (p : Point) : Prop := |p.x| ≤ 1000000 ∧ |p.y| ≤ 1000000

namespace Schemas

theorem finiteCoord_eq_some {q x : ℚ} :
    finiteCoord (some (.num (.finite q))) = some x ↔ |q| ≤ 1000000 ∧ q = x := by
  rw [abs_le]
  exact Option.ite_none_right_eq_some.trans (and_congr_right fun _ ↦ Option.some_inj)

theorem strokeWidth_eq_some {q x : ℚ} :
    strokeWidth (some (.num (.finite q))) = some x ↔ (0 < q ∧ q ≤ 200) ∧ q = x :=
  Option.ite_none_right_eq_some.trans (and_congr_right fun _ ↦ Option.some_inj)

theorem color_eq_some {c d : String} :
    color (some (.str c)) = some d ↔ safeColor.rmatch c.toList = true ∧ c = d :=
  Option.ite_none_right_eq_some.trans (and_congr_right fun _ ↦ Option.some_inj)

end Schemas

/-- What the schema asks of a segment. -/
theorem StrokeSegment.accepted_iff {seg : StrokeSegment} : seg.Accepted ↔
    Point.InBounds ⟨seg.x0, seg.y0⟩ ∧ Point.InBounds ⟨seg.x1, seg.y1⟩ ∧
      Schemas.safeColor.rmatch seg.color.toList = true ∧ 0 < seg.width ∧ seg.width ≤ 200 := by
  have hstrict : Schemas.strict ["x0", "y0", "x1", "y1", "color", "width"] (some seg.toJson)
      = some (some seg.toJson) := rfl
  have hx0 : Json.prop (some seg.toJson) "x0" = some (.num (.finite seg.x0)) := rfl
  have hy0 : Json.prop (some seg.toJson) "y0" = some (.num (.finite seg.y0)) := rfl
  have hx1 : Json.prop (some seg.toJson) "x1" = some (.num (.finite seg.x1)) := rfl
  have hy1 : Json.prop (some seg.toJson) "y1" = some (.num (.finite seg.y1)) := rfl
  have hcolor : Json.prop (some seg.toJson) "color" = some (.str seg.color) := rfl
  have hwidth : Json.prop (some seg.toJson) "width" = some (.num (.finite seg.width)) := rfl
  simp only [Accepted, Schemas.strokeSegment, hstrict, Option.bind_eq_bind, Option.bind_some, hx0,
    hy0, hx1, hy1, hcolor, hwidth, Option.bind_eq_some_iff, Schemas.finiteCoord_eq_some,
    Schemas.strokeWidth_eq_some, Schemas.color_eq_some]
  constructor
  · rintro ⟨_, ⟨h0, rfl⟩, _, ⟨h0', rfl⟩, _, ⟨h1, rfl⟩, _, ⟨h1', rfl⟩, _, ⟨hsafe, rfl⟩, _,
      ⟨hw, rfl⟩, -⟩
    exact ⟨⟨h0, h0'⟩, ⟨h1, h1'⟩, hsafe, hw⟩
  · rintro ⟨⟨h0, h0'⟩, ⟨h1, h1'⟩, hsafe, hw⟩
    exact ⟨_, ⟨h0, rfl⟩, _, ⟨h0', rfl⟩, _, ⟨h1, rfl⟩, _, ⟨h1', rfl⟩, _, ⟨hsafe, rfl⟩, _, ⟨hw, rfl⟩,
      rfl⟩

/-! ## Brushes -/

theorem safeColor_palette :
    ∀ c ∈ canvasBg :: palette, Schemas.safeColor.rmatch c.toList = true := by
  decide +kernel

namespace Canvas

variable {s t : Canvas} {e : PointerEvent} {m : Gesture} {seg : StrokeSegment}

/-! ## What a move draws -/

/-- The segment a move draws from a sample. -/
def segment (s : Canvas) (last : Point) (e : PointerEvent) : StrokeSegment :=
  let next := s.viewport.toWorld e.screen
  ⟨last.x, last.y, next.x, next.y, s.ui.resolveBrush.color,
    s.ui.resolveBrush.width / s.viewport.transform.scale⟩

theorem draw_cases : s.draw e = s ∨ ∃ last, s.sampler.builder.last = some last ∧
    (s.draw e).ui = s.ui ∧ (s.draw e).drawn = s.drawn ++ [s.segment last e] := by
  rw [draw]
  split_ifs with hactive
  · obtain ⟨last, hlast⟩ := Option.isSome_iff_exists.mp hactive
    refine Or.inr ⟨last, hlast, rfl, ?_⟩
    rw [StrokeBuilder.extend, hlast]
    rfl
  · exact Or.inl rfl

theorem onMove_cases : ((s.onMove e).ui = s.ui ∧ (s.onMove e).drawn = s.drawn) ∨
    ∃ last, s.sampler.builder.last = some last ∧ (s.onMove e).ui = s.ui ∧
      (s.onMove e).drawn = s.drawn ++ [s.segment last e] := by
  rw [onMove]
  split
  · exact Or.inl ⟨rfl, rfl⟩
  · rcases draw_cases (s := s) (e := e) with heq | hdraws
    · rw [heq]
      exact Or.inl ⟨rfl, rfl⟩
    · exact Or.inr hdraws

theorem drawn_of_step (hs : machine.step s m = some t) (hdrawn : t.drawn = s.drawn ++ [seg]) :
    ∃ e last, m = .move e ∧ s.sampler.builder.last = some last ∧ seg = s.segment last e := by
  have hsame : t.drawn ≠ s.drawn := by
    rw [hdrawn]
    exact fun h ↦ List.cons_ne_nil _ _ (List.append_right_eq_self.mp h)
  cases m with
  | move e =>
    obtain rfl := Option.some.inj hs
    rcases onMove_cases (s := s) (e := e) with ⟨-, heq⟩ | ⟨last, hlast, -, heq⟩
    · exact absurd heq hsame
    · have hseg : s.segment last e = seg :=
        List.singleton_inj.mp (List.append_cancel_left (heq.symm.trans hdrawn))
      exact ⟨e, last, rfl, hlast, hseg.symm⟩
  | down e =>
    obtain rfl := Option.some.inj hs
    rw [onDown] at hsame
    split_ifs at hsame <;> exact absurd rfl hsame
  | resize width height =>
    obtain rfl := Option.some.inj hs
    rw [resize] at hsame
    split_ifs at hsame <;> exact absurd rfl hsame
  | setColor color =>
    obtain ⟨-, hs⟩ := Option.ite_none_right_eq_some.mp hs
    obtain rfl := Option.some.inj hs
    exact absurd rfl hsame
  | up | wheel | attach | setTool | cycleWidth | setPaletteOpen =>
    obtain rfl := Option.some.inj hs
    exact absurd rfl hsame

/-! ## What the toolbar offers -/

/-- What the toolbar can make of the UI state. -/
structure Offered (ui : UiState) : Prop where
  color : ui.color ∈ palette
  width : ui.width ∈ widthSteps

theorem offered_step (h : Offered s.ui) (hs : machine.step s m = some t) : Offered t.ui := by
  cases m with
  | setColor color =>
    obtain ⟨hcolor, hs⟩ := Option.ite_none_right_eq_some.mp hs
    obtain rfl := Option.some.inj hs
    exact ⟨hcolor, h.width⟩
  | cycleWidth up =>
    obtain rfl := Option.some.inj hs
    exact ⟨h.color, UiState.width_cycleWidth_mem s.ui up⟩
  | down e =>
    obtain rfl := Option.some.inj hs
    rw [onDown]
    split_ifs <;> exact h
  | move e =>
    obtain rfl := Option.some.inj hs
    rcases onMove_cases (s := s) (e := e) with ⟨hui, -⟩ | ⟨-, -, hui, -⟩
    all_goals rwa [hui]
  | resize width height =>
    obtain rfl := Option.some.inj hs
    rw [resize]
    split_ifs <;> exact h
  | up | wheel | attach | setTool | setPaletteOpen =>
    obtain rfl := Option.some.inj hs
    exact ⟨h.color, h.width⟩

theorem offered_of_reaches (h : machine.Reaches Machine.anyStep s) : Offered s.ui := by
  refine h.invariant (P := fun s ↦ Offered s.ui) ?_ fun _ _ _ hoffered _ hs ↦
    offered_step hoffered hs
  rintro _ rfl
  exact ⟨List.mem_cons_self, List.mem_cons_of_mem _ List.mem_cons_self⟩

theorem safeColor_brush (h : Offered s.ui) :
    Schemas.safeColor.rmatch s.ui.resolveBrush.color.toList = true := by
  refine safeColor_palette _ ?_
  rw [UiState.resolveBrush]
  cases s.ui.tool with
  | eraser => exact List.mem_cons_self
  | pen => exact List.mem_cons_of_mem _ h.color

/-! ## When the server accepts it -/

/-- The brush is narrow enough for the scale: the eraser and the widest pen are too wide when zoomed
out far enough. -/
def WidthFits (s : Canvas) : Prop :=
  match s.ui.tool with
  | .eraser => 0.12 ≤ s.viewport.transform.scale
  | .pen => s.ui.width = 16 → 0.08 ≤ s.viewport.transform.scale

/-- The screen point is near enough to the world origin. -/
def SampleFits (s : Canvas) (screen : Point) : Prop :=
  |screen.x - s.viewport.transform.x| ≤ 1000000 * s.viewport.transform.scale ∧
    |screen.y - s.viewport.transform.y| ≤ 1000000 * s.viewport.transform.scale

/-- A move fits the schema: the brush does, and so do the sample before and the new one. -/
def Fits (s : Canvas) : Gesture → Prop
  | .move e =>
    s.WidthFits ∧ (∀ last ∈ s.sampler.builder.last, last.InBounds) ∧ s.SampleFits e.screen
  | _ => True

theorem inBounds_toWorld {screen : Point} :
    (s.viewport.toWorld screen).InBounds ↔ s.SampleFits screen :=
  and_congr Viewport.abs_div_scale_le Viewport.abs_div_scale_le

theorem brush_width_le_iff (h : Offered s.ui) :
    s.ui.resolveBrush.width ≤ 200 * s.viewport.transform.scale ↔ s.WidthFits := by
  have hscale : 0.05 ≤ s.viewport.transform.scale := s.viewport.scale_mem.1
  have hwidth := h.width
  rw [WidthFits, UiState.resolveBrush]
  cases s.ui.tool with
  | eraser =>
    dsimp only [eraserWidth]
    constructor <;> intro hle <;> linarith
  | pen =>
    dsimp only
    generalize s.ui.width = width at hwidth
    simp only [widthSteps, List.mem_cons, List.not_mem_nil, or_false] at hwidth
    -- but for the last step, the least scale is enough
    rcases hwidth with rfl | rfl | rfl | rfl | rfl
    case inr.inr.inr.inr =>
      constructor
      · intro hle _
        linarith
      · intro himp
        have hle := himp rfl
        linarith
    all_goals exact iff_of_true (by linarith) fun heq ↦ absurd heq (by norm_num)

theorem brush_width_pos (h : Offered s.ui) : 0 < s.ui.resolveBrush.width := by
  have hwidth := h.width
  rw [UiState.resolveBrush]
  cases s.ui.tool with
  | eraser => norm_num [eraserWidth]
  | pen =>
    simp only [widthSteps, List.mem_cons, List.not_mem_nil, or_false] at hwidth
    rcases hwidth with heq | heq | heq | heq | heq <;> norm_num [heq]

/-- **What the server accepts.** In every state the user can bring the client to, a segment that is
committed and sent is accepted if and only if the brush is narrow enough for the scale and both its
samples are near enough to the world origin. -/
theorem accepted_iff_fits (hs : machine.Reaches Machine.anyStep s)
    (hstep : machine.step s m = some t) (hdrawn : t.drawn = s.drawn ++ [seg]) :
    seg.Accepted ↔ s.Fits m := by
  obtain ⟨e, last, rfl, hlast, rfl⟩ := drawn_of_step hstep hdrawn
  have hoffered := offered_of_reaches hs
  have hpos : 0 < (s.segment last e).width :=
    div_pos (brush_width_pos hoffered) s.viewport.scale_pos
  have hle : (s.segment last e).width ≤ 200 ↔ s.WidthFits :=
    (div_le_iff₀ s.viewport.scale_pos).trans (brush_width_le_iff hoffered)
  rw [StrokeSegment.accepted_iff, hle, Fits, hlast]
  constructor
  · rintro ⟨h0, h1, -, -, hw⟩
    refine ⟨hw, fun p hp ↦ ?_, inBounds_toWorld.mp h1⟩
    obtain rfl := Option.mem_some_iff.mp hp
    exact h0
  · rintro ⟨hw, h0, h1⟩
    exact ⟨h0 last rfl, inBounds_toWorld.mpr h1, safeColor_brush hoffered, hpos, hw⟩

/-- A stroke is under way. -/
private def begun (s : Canvas) : Bool := s.sampler.builder.active && !s.sampler.panning

private theorem exists_segment (h : begun s = true) (e : PointerEvent) :
    ∃ last, machine.step s (.move e) = some (s.draw e) ∧
      (s.draw e).drawn = s.drawn ++ [s.segment last e] := by
  rw [begun, Bool.and_eq_true, Bool.not_eq_true'] at h
  obtain ⟨last, hlast⟩ := Option.isSome_iff_exists.mp h.1
  have hmove : s.onMove e = s.draw e := by
    rw [onMove, h.2]
  refine ⟨last, congrArg some hmove, ?_⟩
  rw [draw, if_pos h.1, StrokeBuilder.extend, hlast]
  rfl

/-- The pen goes down on a canvas that has its size. -/
private def penDown : List Gesture := [.resize 800 600, .down { screen := ⟨100, 100⟩ }]

theorem accepted_iff_fits_pen : ∃ (s t : Canvas) (seg : StrokeSegment),
    t.drawn = s.drawn ++ [seg] ∧ (seg.Accepted ↔ s.Fits (.move { screen := ⟨110, 100⟩ })) := by
  obtain ⟨s, -, hsteps, hp⟩ := Machine.exists_of_exec (M := machine) (p := begun) {} penDown
    (by decide +kernel)
  obtain ⟨last, hstep, hdrawn⟩ := exists_segment hp { screen := ⟨110, 100⟩ }
  exact ⟨s, _, _, hdrawn, accepted_iff_fits ⟨_, rfl, hsteps⟩ hstep hdrawn⟩

/-- The user zooms out, takes the eraser, and puts it down. -/
private def eraserDown : List Gesture :=
  List.replicate 21 (.wheel ⟨0, 0⟩ 100) ++ [.setTool .eraser, .down { screen := ⟨100, 100⟩ }]

/-- The eraser is down and too wide. -/
private def tooWide (s : Canvas) : Bool :=
  begun s && decide (s.ui.tool = .eraser ∧ s.viewport.transform.scale < 0.12)

/-- Zoomed out to a tenth, the eraser makes segments that the server turns away. -/
theorem eraser_turned_away : ¬∀ (s t : Canvas) (m : Gesture) (seg : StrokeSegment),
    machine.Reaches Machine.anyStep s → machine.step s m = some t →
      t.drawn = s.drawn ++ [seg] → seg.Accepted := by
  intro hclaim
  obtain ⟨s, -, hsteps, hp⟩ := Machine.exists_of_exec (M := machine) (p := tooWide) {} eraserDown
    (by decide +kernel)
  rw [tooWide, Bool.and_eq_true, decide_eq_true_iff] at hp
  obtain ⟨hbegun, htool, hscale⟩ := hp
  obtain ⟨last, hstep, hdrawn⟩ := exists_segment hbegun { screen := ⟨110, 100⟩ }
  have haccepted := hclaim s _ _ _ ⟨_, rfl, hsteps⟩ hstep hdrawn
  have hle : s.ui.resolveBrush.width ≤ 200 * s.viewport.transform.scale :=
    (div_le_iff₀ s.viewport.scale_pos).mp (StrokeSegment.accepted_iff.mp haccepted).2.2.2.2
  rw [UiState.resolveBrush, htool] at hle
  dsimp only [eraserWidth] at hle
  linarith

end Canvas

end Synapse
