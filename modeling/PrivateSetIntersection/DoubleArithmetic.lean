import PrivateSetIntersection.Library.ExtendedReal

/-! The `double` operations the code performs, as a parameter. Results about the protocol
hold of any of them; those about magnitudes are about the reals with infinities and NaN. -/
namespace PrivateSetIntersection
open Library

class DoubleArithmetic (D : Type) where
  ofInt : Int → D
  le : D → D → Bool
  neg : D → D
  sub : D → D → D
  mul : D → D → D
  div : D → D → D
  max : D → D → D
  log : D → D
  log2 : D → D
  ceil : D → D
  round : D → D
  /-- `none` is a value the cast is undefined for: out of range, or not a number. -/
  toInt : D → Option Int
  toInt64 : D → Option Int

/-- The binary logarithm, exact at powers of two and linear between them. -/
def linearLog2 (x : ℚ) : ℚ := Int.log 2 x + (x / 2 ^ Int.log 2 x - 1)

/-- Rationals in place of doubles. -/
instance : DoubleArithmetic ℚ where
  ofInt x := x
  le x y := decide (x ≤ y)
  neg x := -x
  sub x y := x - y
  mul x y := x * y
  div x y := x / y
  max x y := Max.max x y
  log x := linearLog2 x * (693147 / 1000000)
  log2 x := linearLog2 x
  ceil x := ⌈x⌉
  round x := round x
  toInt x := if -2 ^ 31 - 1 < x ∧ x < 2 ^ 31 then some (x.num.tdiv x.den) else none
  toInt64 x := if -2 ^ 63 ≤ x ∧ x < 2 ^ 63 then some (x.num.tdiv x.den) else none

/-- Reals with infinities and NaN in place of doubles. -/
noncomputable instance : DoubleArithmetic ExtendedReal where
  ofInt x := .real x
  le := ExtendedReal.le
  neg := ExtendedReal.neg
  sub := ExtendedReal.sub
  mul := ExtendedReal.mul
  div := ExtendedReal.div
  max := ExtendedReal.max
  log := ExtendedReal.log
  log2 := ExtendedReal.log2
  ceil := ExtendedReal.map (fun x => ⌈x⌉)
  round := ExtendedReal.map (fun x => ExtendedReal.roundAway x)
  toInt := ExtendedReal.toWord 31
  toInt64 := ExtendedReal.toWord 63

class CastsFit (D : Type) [DoubleArithmetic D] : Prop where
  toInt (x : D) {n : Int} : DoubleArithmetic.toInt x = some n → -2 ^ 31 ≤ n ∧ n < 2 ^ 31
  toInt64 (x : D) {n : Int} : DoubleArithmetic.toInt64 x = some n → -2 ^ 63 ≤ n ∧ n < 2 ^ 63

private theorem tdiv_fits {x : ℚ} {bound : Int} (hbound : 0 < bound) (hlo : -bound - 1 < x) (hhi : x < bound) :
    -bound ≤ x.num.tdiv x.den ∧ x.num.tdiv x.den < bound := by
  have hden : (0 : ℚ) < x.den := by exact_mod_cast x.pos
  have hx : x * x.den = x.num := Rat.mul_den_eq_num x
  have hnumLo : (-bound - 1) * (x.den : Int) < x.num := by
    have h := mul_lt_mul_of_pos_right hlo hden
    rw [hx] at h
    exact_mod_cast h
  have hnumHi : x.num < bound * (x.den : Int) := by
    have h := mul_lt_mul_of_pos_right hhi hden
    rw [hx] at h
    exact_mod_cast h
  have hpos : (0 : Int) < x.den := by exact_mod_cast x.pos
  generalize x.num = num at *
  generalize (x.den : Int) = den at *
  rcases le_total 0 num with h | h
  · rw [Int.tdiv_eq_ediv_of_nonneg h]
    exact ⟨le_trans (by omega) (Int.ediv_nonneg h hpos.le), Int.ediv_lt_of_lt_mul hpos hnumHi⟩
  · obtain ⟨m, rfl⟩ : ∃ m, num = -m := ⟨-num, by omega⟩
    rw [Int.neg_tdiv, Int.tdiv_eq_ediv_of_nonneg (by omega)]
    have hlt : m / den < bound + 1 := Int.ediv_lt_of_lt_mul hpos (by linarith)
    have hnonneg : 0 ≤ m / den := Int.ediv_nonneg (by omega) hpos.le
    omega

instance : CastsFit ℚ where
  toInt x n h := by
    change (if -2 ^ 31 - 1 < x ∧ x < 2 ^ 31 then some (x.num.tdiv x.den) else none) = some n at h
    split at h <;> cases h
    rename_i hx
    exact tdiv_fits (by decide) (by exact_mod_cast hx.1) (by exact_mod_cast hx.2)
  toInt64 x n h := by
    change (if -2 ^ 63 ≤ x ∧ x < 2 ^ 63 then some (x.num.tdiv x.den) else none) = some n at h
    split at h <;> cases h
    rename_i hx
    refine tdiv_fits (by decide) ?_ (by exact_mod_cast hx.2)
    push_cast
    linarith [hx.1]

private theorem toWord_fits {bits : Nat} {x : ExtendedReal} {n : Int} (h : x.toWord bits = some n) :
    -2 ^ bits ≤ n ∧ n < 2 ^ bits := by
  cases x with
  | real x =>
    rw [ExtendedReal.toWord] at h
    split at h <;> cases h
    rename_i hx
    rw [ExtendedReal.truncate]
    split <;> rename_i hsign
    · have hpow : (0 : Int) < 2 ^ bits := by positivity
      exact ⟨by linarith [Int.floor_nonneg.mpr hsign], Int.floor_lt.mpr (by exact_mod_cast hx.2)⟩
    · have hceil : -2 ^ bits - 1 < ⌈x⌉ := Int.lt_ceil.mpr (by exact_mod_cast hx.1)
      have hpow : (0 : Int) < 2 ^ bits := by positivity
      have hle : ⌈x⌉ ≤ 0 := Int.ceil_le.mpr (by push_cast; linarith)
      exact ⟨by omega, by omega⟩
  | _ => cases h

instance : CastsFit ExtendedReal where
  toInt x n h := @toWord_fits 31 x n h
  toInt64 x n h := @toWord_fits 63 x n h

def int64 (x : Int) : Int := x.bmod (2 ^ 64)

theorem int64_eq_self {x : Int} (hlo : -2 ^ 63 ≤ x) (hhi : x < 2 ^ 63) : int64 x = x := by
  apply Int.bmod_eq_of_le <;> omega

end PrivateSetIntersection
