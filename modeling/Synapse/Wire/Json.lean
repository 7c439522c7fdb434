import Mathlib.Algebra.Order.Ring.Rat
import Mathlib.Data.Rat.Lemmas

/-!
# Values from the wire

What a handler receives is whatever the client sent, parsed from JSON, with the binary attachments
of the packet put in place. `Json` is such a value as the program sees it; `undefined`, which is
what a read of an absent property gives, is `none`.

Numbers are exact rationals, of which the doubles are a part, and the two infinities that an
overflowing literal is parsed to. `JSON.parse` has no way to produce `NaN`.

How a number or a buffer is written into a string is the platform's business and is left open
(`Rendering`).
-/

namespace Synapse

/-- A number as `JSON.parse` returns it. -/
inductive JsNumber
  | finite (q : ℚ)
  | infinity (negative : Bool)
  deriving DecidableEq

/-- A parsed JSON value, or a buffer. The fields of an object have different names. -/
inductive Json
  | null
  | bool (b : Bool)
  | num (n : JsNumber)
  | str (s : String)
  | arr (items : List Json)
  | obj (fields : List (String × Json))
  | binary (bytes : List UInt8)

namespace Json

mutual

/-- Equality of values, by their structure. -/
def decEq : (a b : Json) → Decidable (a = b)
  | .null, .null => isTrue rfl
  | .bool a, .bool b => decidable_of_iff (a = b) (by simp)
  | .num a, .num b => decidable_of_iff (a = b) (by simp)
  | .str a, .str b => decidable_of_iff (a = b) (by simp)
  | .arr a, .arr b =>
    match decEqItems a b with
    | isTrue h => isTrue (by rw [h])
    | isFalse h => isFalse (by simpa using h)
  | .obj a, .obj b =>
    match decEqFields a b with
    | isTrue h => isTrue (by rw [h])
    | isFalse h => isFalse (by simpa using h)
  | .binary a, .binary b => decidable_of_iff (a = b) (by simp)
  | .null, .bool _ | .null, .num _ | .null, .str _ | .null, .arr _
  | .null, .obj _ | .null, .binary _
  | .bool _, .null | .bool _, .num _ | .bool _, .str _ | .bool _, .arr _
  | .bool _, .obj _ | .bool _, .binary _
  | .num _, .null | .num _, .bool _ | .num _, .str _ | .num _, .arr _
  | .num _, .obj _ | .num _, .binary _
  | .str _, .null | .str _, .bool _ | .str _, .num _ | .str _, .arr _
  | .str _, .obj _ | .str _, .binary _
  | .arr _, .null | .arr _, .bool _ | .arr _, .num _ | .arr _, .str _
  | .arr _, .obj _ | .arr _, .binary _
  | .obj _, .null | .obj _, .bool _ | .obj _, .num _ | .obj _, .str _
  | .obj _, .arr _ | .obj _, .binary _
  | .binary _, .null | .binary _, .bool _ | .binary _, .num _ | .binary _, .str _
  | .binary _, .arr _ | .binary _, .obj _ =>
    isFalse (by simp)

def decEqItems : (a b : List Json) → Decidable (a = b)
  | [], [] => isTrue rfl
  | a :: as, b :: bs =>
    match decEq a b, decEqItems as bs with
    | isTrue h, isTrue h' => isTrue (by rw [h, h'])
    | isFalse h, _ => isFalse (by simp [h])
    | _, isFalse h => isFalse (by simp [h])
  | [], _ :: _ | _ :: _, [] => isFalse (by simp)

def decEqFields : (a b : List (String × Json)) → Decidable (a = b)
  | [], [] => isTrue rfl
  | (k, a) :: as, (l, b) :: bs =>
    match instDecidableEqString k l, decEq a b, decEqFields as bs with
    | isTrue hk, isTrue h, isTrue h' => isTrue (by rw [hk, h, h'])
    | isFalse h, _, _ => isFalse (by simp [h])
    | _, isFalse h, _ => isFalse (by simp [h])
    | _, _, isFalse h => isFalse (by simp [h])
  | [], _ :: _ | _ :: _, [] => isFalse (by simp)

end

instance : DecidableEq Json := decEq

/-- `data?.key`. -/
def prop (data : Option Json) (key : String) : Option Json :=
  match data with
  | some (.obj fields) => fields.lookup key
  | _ => none

/-- Whether the value counts as true in a condition. -/
def truthy : Option Json → Bool
  | none | some .null => false
  | some (.bool b) => b
  | some (.num (.finite q)) => decide (q ≠ 0)
  | some (.str s) => decide (s ≠ "")
  | some _ => true

/-- How the platform writes what has no fixed spelling here. -/
structure Rendering where
  number : JsNumber → String
  binary : List UInt8 → String

mutual

/-- The string a value becomes in a template, or nothing when that throws: a field named `toString`
hides the method, and no value from the wire can be called. -/
def render (R : Rendering) : Json → Option String
  | .null => some "null"
  | .bool b => some (if b then "true" else "false")
  | .num n => some (R.number n)
  | .str s => some s
  | .arr items => (renderItems R items).map (String.intercalate ",")
  | .obj fields => if fields.any fun f ↦ f.1 == "toString" then none else some "[object Object]"
  | .binary bytes => some (R.binary bytes)

/-- The items as `join` writes them: `null` becomes nothing. -/
def renderItems (R : Rendering) : List Json → Option (List String)
  | [] => some []
  | .null :: items => (renderItems R items).map ("" :: ·)
  | item :: items => (render R item).bind fun s ↦ (renderItems R items).map (s :: ·)

end

/-- The string an undefined or defined value becomes in a template. -/
def template (R : Rendering) : Option Json → Option String
  | none => some "undefined"
  | some v => render R v

end Json

namespace Wire

/-- Normalizes a reported Sequence_Number to a positive integer, or to nothing if it is no position
to resume from. Both `joinRoom.ts` and `resync.ts` have this function. -/
def normalizeSinceSeq (raw : Option Json) : Option ℕ :=
  match raw with
  | some (.num (.finite q)) => if q.den = 1 ∧ 0 < q then some q.num.toNat else none
  | _ => none

/-- The value is the positive integer `n`. -/
def Reports (raw : Option Json) (n : ℕ) : Prop := raw = some (.num (.finite n)) ∧ 0 < n

theorem normalizeSinceSeq_eq_some {raw : Option Json} {n : ℕ} :
    normalizeSinceSeq raw = some n ↔ Reports raw n := by
  constructor
  · intro h
    unfold normalizeSinceSeq at h
    split at h
    · next q =>
      obtain ⟨⟨hden, hpos⟩, hn⟩ := Option.ite_none_right_eq_some.mp h
      have hnum : 0 < q.num := Rat.num_pos.mpr hpos
      have hq : q = (n : ℚ) := by
        rw [← Rat.coe_int_num_of_den_eq_one hden, ← Option.some_inj.mp hn]
        exact_mod_cast congrArg (Int.cast : ℤ → ℚ) (Int.toNat_of_nonneg hnum.le).symm
      have hle : 0 < n := by
        have := Option.some_inj.mp hn
        omega
      exact ⟨by rw [hq], hle⟩
    · cases h
  · rintro ⟨rfl, hpos⟩
    have hinteger : (n : ℚ).den = 1 ∧ (0 : ℚ) < n := ⟨Rat.den_natCast n, by exact_mod_cast hpos⟩
    exact if_pos hinteger

theorem normalizeSinceSeq_eq_none {raw : Option Json} :
    normalizeSinceSeq raw = none ↔ ∀ n, ¬ Reports raw n := by
  constructor
  · intro h n hn
    rw [normalizeSinceSeq_eq_some.mpr hn] at h
    cases h
  · intro h
    by_contra hne
    obtain ⟨n, hn⟩ := Option.ne_none_iff_exists'.mp hne
    exact h n (normalizeSinceSeq_eq_some.mp hn)

end Wire

end Synapse
