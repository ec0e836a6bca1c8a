import Mathlib

/-! Real arithmetic with infinities and a value that is not a number, in place of a binary
floating-point type. Results are exact, but for one effect of a 53-bit significand: a
subtrahend below a quarter unit of the minuend is lost. Zeros carry no sign. -/
namespace Library

inductive ExtendedReal where
  | real (x : ℝ)
  | posInf
  | negInf
  | nan

namespace ExtendedReal

noncomputable section Operations

def infinity : SignType → ExtendedReal
  | .pos => posInf
  | .neg => negInf
  | .zero => nan

def sign : ExtendedReal → SignType
  | real x => SignType.sign x
  | posInf => 1
  | negInf => -1
  | nan => 0

def neg : ExtendedReal → ExtendedReal
  | real x => real (-x)
  | posInf => negInf
  | negInf => posInf
  | nan => nan

def sub : ExtendedReal → ExtendedReal → ExtendedReal
  | real x, real y => if 0 < y ∧ y < x / 2 ^ 54 then real x else real (x - y)
  | real _, posInf => negInf
  | real _, negInf => posInf
  | posInf, real _ => posInf
  | posInf, negInf => posInf
  | negInf, real _ => negInf
  | negInf, posInf => negInf
  | _, _ => nan

def mul : ExtendedReal → ExtendedReal → ExtendedReal
  | nan, _ => nan
  | _, nan => nan
  | real x, real y => real (x * y)
  | x, y => infinity (x.sign * y.sign)

def div : ExtendedReal → ExtendedReal → ExtendedReal
  | real x, real y => if y = 0 then infinity (SignType.sign x) else real (x / y)
  | real _, posInf => real 0
  | real _, negInf => real 0
  | posInf, real y => if 0 ≤ y then posInf else negInf
  | negInf, real y => if 0 ≤ y then negInf else posInf
  | _, _ => nan

/-- No comparison with `nan` holds. -/
def lt : ExtendedReal → ExtendedReal → Bool
  | real x, real y => decide (x < y)
  | real _, posInf => true
  | negInf, real _ => true
  | negInf, posInf => true
  | _, _ => false

def le : ExtendedReal → ExtendedReal → Bool
  | real x, real y => decide (x ≤ y)
  | real _, posInf => true
  | posInf, posInf => true
  | negInf, real _ => true
  | negInf, posInf => true
  | negInf, negInf => true
  | _, _ => false

/-- The first argument, unless the second is known to be larger. -/
def max (x y : ExtendedReal) : ExtendedReal := if x.lt y then y else x

def logWith (f : ℝ → ℝ) : ExtendedReal → ExtendedReal
  | real x => if 0 < x then real (f x) else if x = 0 then negInf else nan
  | posInf => posInf
  | negInf => nan
  | nan => nan

def log : ExtendedReal → ExtendedReal := logWith Real.log

def log2 : ExtendedReal → ExtendedReal := logWith (Real.logb 2)

def map (f : ℝ → ℝ) : ExtendedReal → ExtendedReal
  | real x => real (f x)
  | x => x

/-- The nearest integer, halves away from zero. -/
def roundAway (x : ℝ) : ℤ := if 0 ≤ x then ⌊x + 1 / 2⌋ else ⌈x - 1 / 2⌉

def truncate (x : ℝ) : ℤ := if 0 ≤ x then ⌊x⌋ else ⌈x⌉

/-- The integer part, if a signed word with that many bits and a sign holds it. -/
def toWord (bits : Nat) : ExtendedReal → Option ℤ
  | real x => if -2 ^ bits - 1 < x ∧ x < 2 ^ bits then some (truncate x) else none
  | _ => none

end Operations

theorem sub_absorbed {x y : ℝ} (hpos : 0 < y) (hsmall : y < x / 2 ^ 54) :
    sub (real x) (real y) = real x := if_pos ⟨hpos, hsmall⟩

theorem sub_exact {x y : ℝ} (h : x / 2 ^ 54 ≤ y) : sub (real x) (real y) = real (x - y) :=
  if_neg fun hsmall => absurd hsmall.2 (not_lt.mpr h)

theorem div_real {x y : ℝ} (h : y ≠ 0) : div (real x) (real y) = real (x / y) := if_neg h

theorem log_pos {x : ℝ} (h : 0 < x) : log (real x) = real (Real.log x) := if_pos h

theorem log2_pos {x : ℝ} (h : 0 < x) : log2 (real x) = real (Real.logb 2 x) := if_pos h

theorem log2_zero : log2 (real 0) = negInf := by
  rw [log2, logWith, if_neg (lt_irrefl 0), if_pos rfl]

theorem log2_neg {x : ℝ} (h : x < 0) : log2 (real x) = nan := by
  rw [log2, logWith, if_neg h.not_gt, if_neg h.ne]

theorem max_real (x y : ℝ) : max (real x) (real y) = real (x ⊔ y) := by
  rw [max, lt]
  by_cases h : x < y
  · rw [if_pos (decide_eq_true h), sup_of_le_right h.le]
  · rw [if_neg (fun hlt => h (of_decide_eq_true hlt)), sup_of_le_left (not_lt.mp h)]

theorem roundAway_le {x : ℝ} {n : ℤ} (h : x ≤ n) : roundAway x ≤ n := by
  rw [roundAway]
  split
  · refine Int.lt_add_one_iff.mp (Int.floor_lt.mpr ?_)
    push_cast
    linarith
  · refine Int.ceil_le.mpr ?_
    linarith

theorem sub_half_le_roundAway (x : ℝ) : x - 1 / 2 ≤ roundAway x := by
  rw [roundAway]
  split
  · have hfloor := (Int.lt_floor_add_one (x + 1 / 2)).le
    linarith
  · exact Int.le_ceil _

theorem roundAway_le_add_half (x : ℝ) : roundAway x ≤ x + 1 / 2 := by
  rw [roundAway]
  split
  · exact Int.floor_le _
  · have hceil := (Int.ceil_lt_add_one (x - 1 / 2)).le
    linarith

theorem toWord_real {bits : Nat} {x : ℝ} (hlo : 0 ≤ x) (hhi : x < 2 ^ bits) :
    toWord bits (real x) = some ⌊x⌋ := by
  have hpow : (0 : ℝ) < 2 ^ bits := by positivity
  rw [toWord, if_pos ⟨by linarith, hhi⟩, truncate, if_pos hlo]

theorem toWord_eq_none {bits : Nat} {x : ℝ} (h : 2 ^ bits ≤ x) : toWord bits (real x) = none :=
  if_neg fun hrange => absurd hrange.2 (not_lt.mpr h)

theorem toWord_intCast {bits : Nat} {n : ℤ} (hlo : 0 ≤ n) (hhi : n < 2 ^ bits) :
    toWord bits (real n) = some n := by
  rw [toWord_real (by exact_mod_cast hlo) (by exact_mod_cast hhi), Int.floor_intCast]

theorem eq_of_toWord {bits : Nat} {n m : ℤ} (h : toWord bits (real n) = some m) : m = n := by
  rw [toWord] at h
  split at h <;> cases h
  rw [truncate]
  split
  · exact Int.floor_intCast n
  · exact Int.ceil_intCast n

theorem le_of_toWord {bits : Nat} {x : ℝ} {n : ℤ} (hx : 0 ≤ x) (h : toWord bits (real x) = some n) : n ≤ x := by
  rw [toWord] at h
  split at h <;> cases h
  rw [truncate, if_pos hx]
  exact Int.floor_le x

end ExtendedReal
end Library
