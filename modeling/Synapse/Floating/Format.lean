import Mathlib.Algebra.Order.Archimedean.Basic
import Mathlib.Data.Int.Log
import Mathlib.Data.Rat.Floor
import Mathlib.Tactic.FieldSimp
import Mathlib.Tactic.Linarith
import Mathlib.Tactic.Ring

/-!
# Binary floating point

A binary format is given by the number of bits of its significand and the range of its exponents.
Its finite values are the rationals that rounding leaves as they are, up to the largest; arithmetic
is exact arithmetic rounded to the nearest of them, the even one of two, with an infinity past the
largest. The two zeros are one value: no comparison tells them apart.
-/

namespace Floating

/-! ## Rounding to an integer -/

/-- The integer closest to `x`, the even one of two. -/
def roundHalfEven (x : ℚ) : ℤ :=
  if x - ⌊x⌋ < 1 / 2 then ⌊x⌋
  else if 1 / 2 < x - ⌊x⌋ then ⌊x⌋ + 1
  else if Even ⌊x⌋ then ⌊x⌋ else ⌊x⌋ + 1

@[simp] theorem roundHalfEven_intCast (z : ℤ) : roundHalfEven z = z := by
  have hfract : (z : ℚ) - ⌊(z : ℚ)⌋ < 1 / 2 := by
    rw [Int.floor_intCast, sub_self]
    exact one_half_pos
  rw [roundHalfEven, if_pos hfract, Int.floor_intCast]

theorem floor_le_roundHalfEven (x : ℚ) : ⌊x⌋ ≤ roundHalfEven x := by
  unfold roundHalfEven
  split_ifs <;> omega

theorem roundHalfEven_le_ceil (x : ℚ) : roundHalfEven x ≤ ⌈x⌉ := by
  have hfloor := Int.floor_le_ceil x
  -- past one half `x` is no integer, and its ceiling is the integer after its floor
  have hceil (h : ¬ x - ⌊x⌋ < 1 / 2) : ⌊x⌋ + 1 ≤ ⌈x⌉ := by
    refine Int.lt_ceil.mpr ?_
    linarith
  unfold roundHalfEven
  split_ifs with h
  · exact hfloor
  · exact hceil h
  · exact hfloor
  · exact hceil h

/-- Rounding does not leave an interval with whole ends. -/
theorem abs_roundHalfEven_le {x : ℚ} {n : ℤ} (h : |x| ≤ n) : |roundHalfEven x| ≤ n := by
  obtain ⟨hlow, hhigh⟩ := abs_le.mp h
  refine abs_le.mpr ⟨?_, ?_⟩
  · refine le_trans (Int.le_floor.mpr ?_) (floor_le_roundHalfEven x)
    exact_mod_cast hlow
  · exact (roundHalfEven_le_ceil x).trans (Int.ceil_le.mpr hhigh)

/-! ## Formats -/

/-- The parameters of a format. -/
structure Format where
  /-- The number of bits of the significand. -/
  precision : ℕ
  /-- The exponent of the smallest positive value. -/
  minExp : ℤ
  /-- The exponent of the last bit of the largest value. -/
  maxExp : ℤ
  precision_pos : 0 < precision

/-- The format of double precision. -/
def binary64 : Format := ⟨53, -1074, 971, by decide⟩

namespace Format

variable (F : Format)

/-- The largest finite value. -/
def maxFinite : ℚ := (2 ^ F.precision - 1) * 2 ^ F.maxExp

/-- The exponent of the last bit that the format keeps of `q`. -/
def exponent (q : ℚ) : ℤ := max (Int.log 2 |q| + 1 - F.precision) F.minExp

/-- Rounds to the precision of the format. -/
def round (q : ℚ) : ℚ := roundHalfEven (q / 2 ^ F.exponent q) * 2 ^ F.exponent q

variable {F}

theorem zpow_two_ne_zero (e : ℤ) : (2 : ℚ) ^ e ≠ 0 := zpow_ne_zero e two_ne_zero

theorem zpow_two_pos (e : ℤ) : (0 : ℚ) < 2 ^ e := zpow_pos two_pos e

theorem round_eq_self_of_eq {q : ℚ} {m : ℤ} (h : q = m * 2 ^ F.exponent q) : F.round q = q := by
  have hquot : q / 2 ^ F.exponent q = m := by
    rw [div_eq_iff (zpow_two_ne_zero _)]
    exact h
  rw [round, hquot, roundHalfEven_intCast, ← h]

theorem round_zero : F.round 0 = 0 :=
  round_eq_self_of_eq (m := 0) (by simp)

/-- A significand that fits leaves no bit below the last place. -/
theorem round_mul_zpow_of_lt {n e : ℤ} (hn : |n| < 2 ^ F.precision) (he : F.minExp ≤ e) :
    F.round (n * 2 ^ e) = n * 2 ^ e := by
  rcases eq_or_ne n 0 with rfl | hne
  · rw [Int.cast_zero, zero_mul]
    exact round_zero
  have hpos : (0 : ℚ) < |(n : ℚ) * 2 ^ e| :=
    abs_pos.mpr (mul_ne_zero (Int.cast_ne_zero.mpr hne) (zpow_two_ne_zero e))
  have hlt : |(n : ℚ) * 2 ^ e| < ((2 : ℕ) : ℚ) ^ ((F.precision : ℤ) + e) := by
    rw [abs_mul, abs_of_pos (zpow_two_pos e), Nat.cast_ofNat, zpow_add₀ two_ne_zero, zpow_natCast]
    refine mul_lt_mul_of_pos_right ?_ (zpow_two_pos e)
    exact_mod_cast hn
  have hexp : F.exponent (n * 2 ^ e) ≤ e := by
    have hlog := (Int.lt_zpow_iff_log_lt one_lt_two hpos).mp hlt
    refine max_le ?_ he
    omega
  obtain ⟨k, hk⟩ := Int.eq_ofNat_of_zero_le (sub_nonneg.mpr hexp)
  refine round_eq_self_of_eq (m := n * 2 ^ k) ?_
  have hsplit : e = (k : ℤ) + F.exponent (n * 2 ^ e) := by omega
  have hpow : (2 : ℚ) ^ e = 2 ^ k * 2 ^ F.exponent (n * 2 ^ e) := by
    rw [← zpow_natCast, ← zpow_add₀ two_ne_zero, ← hsplit]
  push_cast
  rw [mul_assoc, ← hpow]

theorem round_mul_zpow {n e : ℤ} (hn : |n| ≤ 2 ^ F.precision) (he : F.minExp ≤ e) :
    F.round (n * 2 ^ e) = n * 2 ^ e := by
  rcases hn.lt_or_eq with hlt | heq
  · exact round_mul_zpow_of_lt hlt he
  -- such a number is also half the significand, one place higher
  obtain ⟨p, hp⟩ := Nat.exists_eq_succ_of_ne_zero F.precision_pos.ne'
  have hhalf : ∃ m : ℤ, n = m * 2 ∧ |m| < 2 ^ F.precision := by
    rw [hp, pow_succ] at heq ⊢
    have hpow : (0 : ℤ) < 2 ^ p := by positivity
    rcases abs_eq (by positivity) |>.mp heq with h | h
    · exact ⟨2 ^ p, h, by rw [abs_of_pos hpow]; omega⟩
    · exact ⟨-2 ^ p, by rw [h, neg_mul], by rw [abs_neg, abs_of_pos hpow]; omega⟩
  obtain ⟨m, rfl, hm⟩ := hhalf
  have hshift : ((m * 2 : ℤ) : ℚ) * 2 ^ e = m * 2 ^ (e + 1) := by
    rw [zpow_add_one₀ two_ne_zero]
    push_cast
    ring
  rw [hshift]
  exact round_mul_zpow_of_lt hm (by omega)

/-- What has been rounded stays. -/
theorem round_round (q : ℚ) : F.round (F.round q) = F.round q := by
  have hbound : |q / 2 ^ F.exponent q| ≤ ((2 ^ F.precision : ℤ) : ℚ) := by
    have hle : Int.log 2 |q| + 1 ≤ F.precision + F.exponent q := by
      have := le_max_left (Int.log 2 |q| + 1 - F.precision) F.minExp
      unfold exponent
      omega
    rw [abs_div, abs_of_pos (zpow_two_pos _), div_le_iff₀ (zpow_two_pos _)]
    calc |q| ≤ ((2 : ℕ) : ℚ) ^ (Int.log 2 |q| + 1) :=
          (Int.lt_zpow_succ_log_self one_lt_two |q|).le
      _ ≤ 2 ^ ((F.precision : ℤ) + F.exponent q) := by
          rw [Nat.cast_ofNat]
          exact zpow_le_zpow_right₀ one_le_two hle
      _ = ((2 ^ F.precision : ℤ) : ℚ) * 2 ^ F.exponent q := by
          rw [zpow_add₀ two_ne_zero, zpow_natCast]
          push_cast
          rfl
  exact round_mul_zpow (abs_roundHalfEven_le hbound) (le_max_right _ _)

end Format

/-! ## Values -/

/-- A finite value of the format. -/
@[ext]
structure Finite (F : Format) where
  val : ℚ
  round_val : F.round val = val
  abs_le : |val| ≤ F.maxFinite

instance {F : Format} : DecidableEq (Finite F) := fun x y ↦
  decidable_of_iff (x.val = y.val) Finite.ext_iff.symm

/-- A value of the format. -/
inductive Value (F : Format)
  | nan
  | infinity (negative : Bool)
  | finite (x : Finite F)
  deriving DecidableEq

namespace Value

variable {F : Format}

/-- The value closest to `q`. -/
def ofRat (F : Format) (q : ℚ) : Value F :=
  if h : |F.round q| ≤ F.maxFinite then finite ⟨F.round q, Format.round_round q, h⟩
  else infinity (decide (q < 0))

/-- The sum. -/
def add : (x y : Value F) → Value F
  | finite x, finite y => ofRat F (x.val + y.val)
  | infinity a, infinity b => if a = b then infinity a else nan
  | infinity a, finite _ | finite _, infinity a => infinity a
  | nan, _ | _, nan => nan

/-- The comparison `x ≤ y`; no comparison with `nan` holds. -/
def le : (x y : Value F) → Bool
  | finite x, finite y => decide (x.val ≤ y.val)
  | finite _, infinity b => !b
  | infinity a, finite _ => a
  | infinity a, infinity b => a || !b
  | nan, _ | _, nan => false

/-- The comparison `x < y`. -/
def lt : (x y : Value F) → Bool
  | finite x, finite y => decide (x.val < y.val)
  | finite _, infinity b => !b
  | infinity a, finite _ => a
  | infinity a, infinity b => a && !b
  | nan, _ | _, nan => false

/-- The equality of numbers; `nan` is not even equal to itself. -/
def eq : (x y : Value F) → Bool
  | nan, _ | _, nan => false
  | x, y => decide (x = y)

/-- Whether the value is finite. -/
def isFinite : Value F → Bool
  | finite _ => true
  | _ => false

theorem exists_of_isFinite {x : Value F} (h : x.isFinite = true) : ∃ q, x = finite q := by
  cases x with
  | finite q => exact ⟨q, rfl⟩
  | nan | infinity b => cases h

theorem le_refl (x : Finite F) : le (finite x) (finite x) = true := by simp [le]

theorem le_trans {x y z : Value F} (hxy : le x y = true) (hyz : le y z = true) :
    le x z = true := by
  rcases x with _ | a | x <;> rcases y with _ | b | y <;> rcases z with _ | c | z <;>
    simp only [le, decide_eq_true_eq, Bool.or_eq_true, Bool.not_eq_true', reduceCtorEq] at hxy hyz ⊢
  all_goals grind

theorem lt_of_le_of_lt {x y z : Value F} (hxy : le x y = true) (hyz : lt y z = true) :
    lt x z = true := by
  rcases x with _ | a | x <;> rcases y with _ | b | y <;> rcases z with _ | c | z <;>
    simp only [le, lt, decide_eq_true_eq, Bool.or_eq_true, Bool.and_eq_true, Bool.not_eq_true',
      reduceCtorEq] at hxy hyz ⊢
  all_goals grind

theorem eq_ofRat_iff {x : Finite F} {q : ℚ} : eq (finite x) (ofRat F q) = true ↔
    x.val = F.round q := by
  unfold ofRat
  split_ifs with h
  · simp [eq, Finite.ext_iff]
  · simp only [eq, decide_eq_true_eq, reduceCtorEq, false_iff]
    intro hx
    exact h (hx ▸ x.abs_le)

end Value

/-! ## Exact values -/

section Exact

variable {F : Format} {n e : ℤ}

theorem abs_mul_zpow_le_maxFinite (hn : |n| < 2 ^ F.precision) (he : e ≤ F.maxExp) :
    |(n : ℚ) * 2 ^ e| ≤ F.maxFinite := by
  rw [abs_mul, abs_of_pos (Format.zpow_two_pos e)]
  have hsig : |(n : ℚ)| ≤ 2 ^ F.precision - 1 := by
    exact_mod_cast Int.le_sub_one_of_lt hn
  exact mul_le_mul hsig (zpow_le_zpow_right₀ one_le_two he) (Format.zpow_two_pos e).le
    ((abs_nonneg _).trans hsig)

/-- The value of a significand and an exponent in range. -/
def Finite.scaled (n e : ℤ) (hn : |n| < 2 ^ F.precision) (hmin : F.minExp ≤ e)
    (hmax : e ≤ F.maxExp) : Finite F :=
  ⟨n * 2 ^ e, Format.round_mul_zpow hn.le hmin, abs_mul_zpow_le_maxFinite hn hmax⟩

end Exact

end Floating
