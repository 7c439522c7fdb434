import Mathlib.Computability.RegularExpressions
import Synapse.Domain
import Synapse.Wire.Json

/-!
# Inbound payload schemas

The wire shape of the client → server events that are validated before they act
(`server/src/validation/schemas.ts`). Every object schema is strict: a key it does not name fails
it. A schema is a function to the parsed payload; the issues of a failure go to the log only and are
left out.
-/

namespace Synapse.Schemas

open RegularExpression

/-! ## Fields -/

/-- Room identifier: `/^[A-Za-z0-9_-]{6,32}$/`. -/
def isRoomId (s : String) : Bool :=
  (s.toList.all fun c ↦ c.isAlphanum || c == '_' || c == '-') &&
    decide (6 ≤ s.length ∧ s.length ≤ 32)

/-- One of the characters. -/
def oneOf (cs : List Char) : RegularExpression Char := (cs.map char).sum

/-- The characters in order. -/
def lit (s : String) : RegularExpression Char := (s.toList.map char).prod

/-- `p{lo,hi}`. -/
def between (p : RegularExpression Char) (lo hi : ℕ) : RegularExpression Char :=
  p ^ lo * (1 + p) ^ (hi - lo)

/-- `\d`. -/
def digit : RegularExpression Char := oneOf "0123456789".toList

/-- `[0-9a-fA-F]`. -/
def hexDigit : RegularExpression Char := oneOf "0123456789abcdefABCDEF".toList

/-- `\s*`. -/
def spaces : RegularExpression Char :=
  (oneOf ([0x9, 0xa, 0xb, 0xc, 0xd, 0x20, 0xa0, 0x1680, 0x2000, 0x2001, 0x2002, 0x2003, 0x2004,
    0x2005, 0x2006, 0x2007, 0x2008, 0x2009, 0x200a, 0x2028, 0x2029, 0x202f, 0x205f, 0x3000,
    0xfeff].map Char.ofNat)).star

/-- `#` and 3 to 8 hex digits, or `rgb` or `rgba` with three components and perhaps an opacity. -/
def safeColor : RegularExpression Char :=
  lit "#" * between hexDigit 3 8 +
    lit "rgb" * (1 + lit "a") * lit "(" * spaces * between digit 1 3 *
      (spaces * lit "," * spaces * between digit 1 3) ^ 2 *
      (1 + spaces * lit "," * spaces *
        (lit "0" + lit "1" + (1 + lit "0") * lit "." * digit * digit.star)) *
      spaces * lit ")"

example : safeColor.rmatch "rgba(1, 2,3 ,.5)".toList = true := by decide

def roomId : Option Json → Option String
  | some (.str s) => if isRoomId s then some s else none
  | _ => none

/-- A finite world-space coordinate within sane bounds. -/
def finiteCoord : Option Json → Option ℚ
  | some (.num (.finite q)) => if -1000000 ≤ q ∧ q ≤ 1000000 then some q else none
  | _ => none

/-- World-space stroke width: finite and within `(0, 200]`. -/
def strokeWidth : Option Json → Option ℚ
  | some (.num (.finite q)) => if 0 < q ∧ q ≤ 200 then some q else none
  | _ => none

def color : Option Json → Option String
  | some (.str s) => if safeColor.rmatch s.toList then some s else none
  | _ => none

/-- The characters `trim` takes off either end. -/
def isBlank (c : Char) : Bool :=
  [0x9, 0xa, 0xb, 0xc, 0xd, 0x20, 0xa0, 0x1680, 0x2000, 0x2001, 0x2002, 0x2003, 0x2004, 0x2005,
    0x2006, 0x2007, 0x2008, 0x2009, 0x200a, 0x2028, 0x2029, 0x202f, 0x205f, 0x3000,
    0xfeff].contains c.toNat

/-- `trim()`, on the characters. -/
def trim (cs : List Char) : List Char :=
  ((cs.dropWhile isBlank).reverse.dropWhile isBlank).reverse

/-- The length in UTF-16 code units. -/
def codeUnits (cs : List Char) : ℕ := (cs.map fun c ↦ if c.toNat < 0x10000 then 1 else 2).sum

/-- Display name: 1 to 20 characters after trimming, with no control characters. -/
def username : Option Json → Option String
  | some (.str s) =>
    let trimmed := trim s.toList
    if 1 ≤ codeUnits trimmed ∧ codeUnits trimmed ≤ 20 ∧
        trimmed.all fun c ↦ decide (0x1f < c.toNat ∧ c.toNat ≠ 0x7f) then
      some (String.ofList trimmed)
    else none
  | _ => none

example : username (some (.str " Ann\n")) = some "Ann" := by decide

/-! ## Event payloads -/

/-- `z.object(…).strict()`: an object without a key that is not among `keys`. -/
def strict (keys : List String) : Option Json → Option (Option Json)
  | some (.obj fields) =>
    if fields.all fun f ↦ keys.contains f.1 then some (some (.obj fields)) else none
  | _ => none

/-- A single drawn segment in world-space coordinates. -/
def strokeSegment (raw : Option Json) : Option StrokeSegment := do
  let data ← strict ["x0", "y0", "x1", "y1", "color", "width"] raw
  let x0 ← finiteCoord (Json.prop data "x0")
  let y0 ← finiteCoord (Json.prop data "y0")
  let x1 ← finiteCoord (Json.prop data "x1")
  let y1 ← finiteCoord (Json.prop data "y1")
  let color ← color (Json.prop data "color")
  let width ← strokeWidth (Json.prop data "width")
  return ⟨x0, y0, x1, y1, color, width⟩

/-- `draw` payload: target room plus the validated stroke segment. -/
def draw (raw : Option Json) : Option (String × StrokeSegment) := do
  let data ← strict ["roomId", "stroke"] raw
  let roomId ← roomId (Json.prop data "roomId")
  let stroke ← strokeSegment (Json.prop data "stroke")
  return (roomId, stroke)

/-- `cursor-move` payload: target room plus the cursor's world-space point. -/
def cursorMove (raw : Option Json) : Option (String × ℚ × ℚ) := do
  let data ← strict ["roomId", "x", "y"] raw
  let roomId ← roomId (Json.prop data "roomId")
  let x ← finiteCoord (Json.prop data "x")
  let y ← finiteCoord (Json.prop data "y")
  return (roomId, x, y)

/-- `clear` payload: just the target room. -/
def clear (raw : Option Json) : Option String := do
  let data ← strict ["roomId"] raw
  roomId (Json.prop data "roomId")

/-! ## What is accepted names its room -/

variable {raw data : Option Json} {r : String}

theorem roomId_eq_some : roomId raw = some r ↔ raw = some (.str r) ∧ isRoomId r := by
  constructor
  · intro h
    unfold roomId at h
    split at h
    · obtain ⟨hid, heq⟩ := Option.ite_none_right_eq_some.mp h
      cases heq
      exact ⟨rfl, hid⟩
    · cases h
  · rintro ⟨rfl, hid⟩
    exact if_pos hid

theorem strict_eq_some {keys : List String} (h : strict keys raw = some data) : data = raw := by
  unfold strict at h
  split at h
  · exact (Option.some.inj (Option.ite_none_right_eq_some.mp h).2).symm
  · cases h

theorem roomId_of_draw {stroke : StrokeSegment} (h : draw raw = some (r, stroke)) :
    Json.prop raw "roomId" = some (.str r) ∧ isRoomId r := by
  obtain ⟨data, hdata, h⟩ := Option.bind_eq_some_iff.mp h
  obtain ⟨r', hr', h⟩ := Option.bind_eq_some_iff.mp h
  obtain ⟨stroke', -, h⟩ := Option.bind_eq_some_iff.mp h
  cases h
  exact strict_eq_some hdata ▸ roomId_eq_some.mp hr'

theorem roomId_of_cursorMove {x y : ℚ} (h : cursorMove raw = some (r, x, y)) :
    Json.prop raw "roomId" = some (.str r) ∧ isRoomId r := by
  obtain ⟨data, hdata, h⟩ := Option.bind_eq_some_iff.mp h
  obtain ⟨r', hr', h⟩ := Option.bind_eq_some_iff.mp h
  obtain ⟨x', -, h⟩ := Option.bind_eq_some_iff.mp h
  obtain ⟨y', -, h⟩ := Option.bind_eq_some_iff.mp h
  cases h
  exact strict_eq_some hdata ▸ roomId_eq_some.mp hr'

theorem roomId_of_clear (h : clear raw = some r) :
    Json.prop raw "roomId" = some (.str r) ∧ isRoomId r := by
  obtain ⟨data, hdata, h⟩ := Option.bind_eq_some_iff.mp h
  exact strict_eq_some hdata ▸ roomId_eq_some.mp h

theorem ne_empty_of_isRoomId (h : isRoomId r) : r ≠ "" := by
  rintro rfl
  cases h

end Synapse.Schemas

namespace Synapse

/-- The segment as it is sent. -/
def StrokeSegment.toJson (seg : StrokeSegment) : Json :=
  .obj [("x0", .num (.finite seg.x0)), ("y0", .num (.finite seg.y0)),
    ("x1", .num (.finite seg.x1)), ("y1", .num (.finite seg.y1)), ("color", .str seg.color),
    ("width", .num (.finite seg.width))]

end Synapse
