import Mathlib.Algebra.Order.Field.Basic
import Mathlib.Algebra.Order.Ring.Rat
import Mathlib.Order.Interval.Set.Defs
import Mathlib.Tactic.NormNum

/-!
# Pan and zoom

The coordinate transforms of `client/src/lib/coordinates.ts` and the `Viewport` that holds one. The
supported zoom range is part of the type: every way to make a viewport clamps.

Numbers are exact rationals here; rounding is left out.
-/

namespace Synapse

/-- A 2D point, in screen space or in world space. -/
structure Point where
  x : ℚ
  y : ℚ
  deriving DecidableEq, Repr

/-- A pan and zoom transform: the screen-space translation of the world origin, and the zoom factor
from world units to screen pixels. -/
structure Transform where
  x : ℚ
  y : ℚ
  scale : ℚ
  deriving DecidableEq, Repr

/-- The least supported scale. -/
def minScale : ℚ := 0.05

/-- The greatest supported scale. -/
def maxScale : ℚ := 20

/-- Clamps a proposed scale into the supported zoom range. -/
def clampScale (scale : ℚ) : ℚ := min (max scale minScale) maxScale

/-- The screen-space point in world space. -/
def screenToWorld (screen : Point) (t : Transform) : Point where
  x := (screen.x - t.x) / t.scale
  y := (screen.y - t.y) / t.scale

/-- The world-space point in screen space. -/
def worldToScreen (world : Point) (t : Transform) : Point where
  x := world.x * t.scale + t.x
  y := world.y * t.scale + t.y

/-- The transform after zooming around a fixed screen anchor. -/
def zoomAround (t : Transform) (anchor : Point) (factor : ℚ) : Transform :=
  let newScale := clampScale (t.scale * factor)
  let world := screenToWorld anchor t
  ⟨anchor.x - world.x * newScale, anchor.y - world.y * newScale, newScale⟩

theorem minScale_pos : 0 < minScale := by norm_num [minScale]

theorem clampScale_mem (scale : ℚ) : clampScale scale ∈ Set.Icc minScale maxScale := by
  have hle : minScale ≤ maxScale := by norm_num [minScale, maxScale]
  exact ⟨le_min (le_max_right _ _) hle, min_le_right _ _⟩

theorem one_mem_range : (1 : ℚ) ∈ Set.Icc minScale maxScale := by
  constructor <;> norm_num [minScale, maxScale]

/-- The viewport of a canvas, a transform within the supported zoom range. -/
structure Viewport where
  transform : Transform
  scale_mem : transform.scale ∈ Set.Icc minScale maxScale

namespace Viewport

/-- The viewport of a canvas that has no size yet. -/
def initial : Viewport := ⟨⟨0, 0, 1⟩, one_mem_range⟩

/-- Centers the world origin in a freshly sized viewport, first layout only. -/
def centerIfUnset (v : Viewport) (cssWidth cssHeight : ℚ) : Viewport :=
  if v.transform.x = 0 ∧ v.transform.y = 0 then ⟨⟨cssWidth / 2, cssHeight / 2, 1⟩, one_mem_range⟩
  else v

/-- Translates by a screen-space delta. -/
def panBy (v : Viewport) (dx dy : ℚ) : Viewport :=
  ⟨{ v.transform with x := v.transform.x + dx, y := v.transform.y + dy }, v.scale_mem⟩

/-- Sets the absolute translation. -/
def setTranslation (v : Viewport) (x y : ℚ) : Viewport :=
  ⟨{ v.transform with x := x, y := y }, v.scale_mem⟩

/-- Zooms around a fixed screen anchor, clamped to the supported range. -/
def zoomAround (v : Viewport) (anchor : Point) (factor : ℚ) : Viewport :=
  ⟨Synapse.zoomAround v.transform anchor factor, clampScale_mem _⟩

/-- Screen to world under the current transform. -/
def toWorld (v : Viewport) (screen : Point) : Point := screenToWorld screen v.transform

/-- World to screen under the current transform. -/
def toScreen (v : Viewport) (world : Point) : Point := worldToScreen world v.transform

variable {v : Viewport} {b : ℚ}

theorem scale_pos (v : Viewport) : 0 < v.transform.scale :=
  minScale_pos.trans_le v.scale_mem.1

theorem abs_div_scale_le {a : ℚ} :
    |a / v.transform.scale| ≤ b ↔ |a| ≤ b * v.transform.scale := by
  rw [abs_div, abs_of_pos v.scale_pos, div_le_iff₀ v.scale_pos]

end Viewport

end Synapse
