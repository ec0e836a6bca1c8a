import PrivateSetIntersection.Datastructure.GolombRoundTrip

/-! The divisor estimated in `golomb.cpp`, over the reals with infinities and NaN: for
which average gaps the nested logarithm ends in a divisor. -/
namespace PrivateSetIntersection
open Library ExtendedReal

namespace Golomb

noncomputable def divisorOf (prob : ExtendedReal) : Option Int :=
  toWord 63 (ExtendedReal.max (real 0)
    ((log2 (log2 (sub (real 1) prob)).neg).neg.map (fun x => roundAway x)))

theorem estimateDiv_eq {sortedArr : List Nat} (hne : sortedArr ≠ []) :
    estimateDiv ExtendedReal sortedArr =
      divisorOf (real (sortedArr.length / (sortedArr.getLastD 0 + 1))) := by
  have hlength : ((sortedArr.length : Int) : ℝ) ≠ 0 := by simpa using hne
  have hlast : ((sortedArr.getLastD 0 + 1 : Int) : ℝ) ≠ 0 := by
    rw [Int.cast_ne_zero]
    omega
  have havg : DoubleArithmetic.div (D := ExtendedReal) (DoubleArithmetic.ofInt (sortedArr.getLastD 0 + 1))
      (DoubleArithmetic.ofInt sortedArr.length) =
        real ((sortedArr.getLastD 0 + 1 : Int) / (sortedArr.length : Int)) := div_real hlength
  have hprob : DoubleArithmetic.div (DoubleArithmetic.ofInt 1)
      (real ((sortedArr.getLastD 0 + 1 : Int) / (sortedArr.length : Int))) =
        real (sortedArr.length / (sortedArr.getLastD 0 + 1)) := by
    refine (div_real (div_ne_zero hlast hlength)).trans ?_
    push_cast
    rw [one_div_div]
  rw [estimateDiv, havg, hprob]
  simp only [DoubleArithmetic.ofInt, Int.cast_zero, Int.cast_one]
  rfl

section Divisor
variable {p : ℝ}

/-- A probability below a quarter unit in the last place of one is lost. -/
theorem divisorOf_sparse (hpos : 0 < p) (hsmall : p < 1 / 2 ^ 54) : divisorOf (real p) = none := by
  have hinner : (log2 (sub (real 1) (real p))).neg = real 0 := by
    rw [sub_absorbed hpos hsmall, log2_pos one_pos, Real.logb_one, neg, neg_zero]
  rw [divisorOf, hinner, log2_zero]
  rfl

/-- With an average gap of one or less the outer logarithm is infinite or not a number. -/
theorem divisorOf_dense (h : 1 ≤ p) : divisorOf (real p) = some 0 := by
  have hsub : sub (real 1) (real p) = real (1 - p) := sub_exact (by norm_num; linarith)
  have hlogs : ∃ x, (x = negInf ∨ x = nan) ∧
      (log2 (log2 (sub (real 1) (real p))).neg).neg = x := by
    rw [hsub]
    rcases h.eq_or_lt with rfl | hlt
    · refine ⟨negInf, Or.inl rfl, ?_⟩
      rw [sub_self, log2_zero]
      rfl
    · refine ⟨nan, Or.inr rfl, ?_⟩
      rw [log2_neg (sub_neg.mpr hlt)]
      rfl
  obtain ⟨x, hx, hlogs⟩ := hlogs
  have hmax : ExtendedReal.max (real 0) (x.map (fun x => roundAway x)) = real ((0 : ℤ) : ℝ) := by
    rw [Int.cast_zero]
    rcases hx with rfl | rfl <;> rfl
  rw [divisorOf, hlogs, hmax, toWord_intCast (le_refl 0) (by norm_num)]

theorem le_neg_logb (hpos : 0 < p) (hlt : p < 1) : p ≤ -Real.logb 2 (1 - p) := by
  have hlog : Real.log (1 - p) ≤ -p := by
    have hle := Real.log_le_sub_one_of_pos (sub_pos.mpr hlt)
    linarith
  have htwo : Real.log 2 ≤ 1 := by
    have hle := Real.log_le_sub_one_of_pos (two_pos (α := ℝ))
    linarith
  have hpos2 : 0 < Real.log 2 := Real.log_pos one_lt_two
  rw [Real.logb, ← neg_div, le_div_iff₀ hpos2]
  calc p * Real.log 2 ≤ p * 1 := by gcongr
    _ ≤ -Real.log (1 - p) := by linarith

theorem divisorOf_between (hlo : 1 / 2 ^ 54 ≤ p) (hlt : p < 1) :
    ∃ div, divisorOf (real p) = some div ∧ 0 ≤ div ∧ div ≤ 54 := by
  have hpos : 0 < p := lt_of_lt_of_le (by positivity) hlo
  have hle := le_neg_logb hpos hlt
  have hinner : 0 < -Real.logb 2 (1 - p) := hpos.trans_le hle
  have houter : -Real.logb 2 (-Real.logb 2 (1 - p)) ≤ ((54 : ℤ) : ℝ) := by
    have hlog : Real.logb 2 (1 / 2 ^ 54) ≤ Real.logb 2 (-Real.logb 2 (1 - p)) :=
      Real.logb_le_logb_of_le one_lt_two (by positivity) (hlo.trans hle)
    have hpow : Real.logb 2 (1 / 2 ^ 54) = -54 := by
      rw [one_div, Real.logb_inv, Real.logb_pow, Real.logb_self_eq_one one_lt_two]
      norm_num
    push_cast
    linarith
  have hround := roundAway_le houter
  have hchain : divisorOf (real p) =
      toWord 63 (real ((0 ⊔ roundAway (-Real.logb 2 (-Real.logb 2 (1 - p))) : ℤ) : ℝ)) := by
    rw [divisorOf, sub_exact hlo, log2_pos (sub_pos.mpr hlt), neg, log2_pos hinner, neg, map,
      max_real, Int.cast_max, Int.cast_zero]
  refine ⟨_, hchain.trans (toWord_intCast (le_max_left _ _) ?_), le_max_left _ _, ?_⟩
  · exact lt_of_le_of_lt (max_le (by norm_num) hround) (by norm_num)
  · exact max_le (by norm_num) hround

end Divisor

section Usable
variable {sortedArr : List Nat}

theorem sparse_iff :
    (sortedArr.length / (sortedArr.getLastD 0 + 1) : ℝ) < 1 / 2 ^ 54 ↔
      2 ^ 54 * sortedArr.length < sortedArr.getLastD 0 + 1 := by
  have hlast : (0 : ℝ) < sortedArr.getLastD 0 + 1 := by positivity
  rw [div_lt_div_iff₀ hlast (by positivity), one_mul, mul_comm]
  exact_mod_cast Iff.rfl

theorem estimateDiv_sparse (hne : sortedArr ≠ [])
    (h : 2 ^ 54 * sortedArr.length < sortedArr.getLastD 0 + 1) :
    estimateDiv ExtendedReal sortedArr = none := by
  have hlength : (0 : ℝ) < sortedArr.length := by simpa [List.length_pos_iff] using hne
  rw [estimateDiv_eq hne, divisorOf_sparse (by positivity) (sparse_iff.mpr h)]

theorem estimateDiv_usable (hne : sortedArr ≠ [])
    (h : sortedArr.getLastD 0 + 1 ≤ 2 ^ 54 * sortedArr.length) :
    ∃ div, estimateDiv ExtendedReal sortedArr = some div ∧ 0 ≤ div ∧ div ≤ 54 := by
  rw [estimateDiv_eq hne]
  rcases le_or_gt 1 (sortedArr.length / (sortedArr.getLastD 0 + 1) : ℝ) with hdense | hlt
  · exact ⟨0, divisorOf_dense hdense, by decide⟩
  · exact divisorOf_between (not_lt.mp (fun hsparse => absurd (sparse_iff.mp hsparse) h.not_gt)) hlt

theorem golombCompress_sparse (hne : sortedArr ≠ [])
    (h : 2 ^ 54 * sortedArr.length < sortedArr.getLastD 0 + 1) :
    golombCompress ExtendedReal sortedArr = none := by
  refine Option.eq_none_iff_forall_ne_some.mpr fun compressed hcompress => ?_
  obtain ⟨div, -, hchosen, -⟩ := (golombCompress_eq_some_iff hne).mp hcompress
  rw [chosenDiv, if_neg (by decide), estimateDiv_sparse hne h] at hchosen
  cases hchosen

/-- Where the encoder goes through at all, its divisor is in range. -/
theorem golombCompress_div {compressed : GolombCompressed}
    (h : golombCompress ExtendedReal sortedArr = some compressed) :
    0 ≤ compressed.div ∧ compressed.div ≤ 54 := by
  by_cases hne : sortedArr = []
  · rw [golombCompress, if_pos hne] at h
    cases h
    exact ⟨le_refl 0, by decide⟩
  · obtain ⟨div, state, hchosen, -, rfl⟩ := (golombCompress_eq_some_iff hne).mp h
    rw [chosenDiv, if_neg (by decide)] at hchosen
    rcases lt_or_ge (2 ^ 54 * sortedArr.length) (sortedArr.getLastD 0 + 1) with hsparse | hdense
    · rw [estimateDiv_sparse hne hsparse] at hchosen
      cases hchosen
    · obtain ⟨div', hdiv, hrange⟩ := estimateDiv_usable hne hdense
      rw [hdiv] at hchosen
      cases hchosen
      exact hrange

/-- The divisor the encoder picks is one to shift by exactly if the average gap is at most
`2 ^ 54`. -/
theorem golombCompress_usable_iff (hne : sortedArr ≠ []) :
    (∃ compressed, golombCompress ExtendedReal sortedArr = some compressed ∧
        0 ≤ compressed.div ∧ compressed.div ≤ 62) ↔
      sortedArr.getLastD 0 + 1 ≤ 2 ^ 54 * sortedArr.length := by
  constructor
  · rintro ⟨compressed, hcompress, -⟩
    refine not_lt.mp fun hsparse => ?_
    rw [golombCompress_sparse hne hsparse] at hcompress
    cases hcompress
  · intro h
    obtain ⟨div, hdiv, hlo, hhi⟩ := estimateDiv_usable hne h
    have hchosen : chosenDiv ExtendedReal sortedArr (-1) = some div := hdiv
    obtain ⟨compressed, hcompress, hused⟩ := exists_golombCompress hchosen ⟨hlo, by omega⟩
    rw [if_neg hne] at hused
    exact ⟨compressed, hcompress, by omega, by omega⟩

/-- A single value, half as large as the bound. -/
theorem golombCompress_usable_iff_single :
    ∃ compressed, golombCompress ExtendedReal [2 ^ 53] = some compressed ∧
      0 ≤ compressed.div ∧ compressed.div ≤ 62 :=
  (golombCompress_usable_iff (List.cons_ne_nil _ _)).mpr (by decide)

/-- One hash, and `1.0 - prob` is `1.0`: the estimate is infinite, and its cast undefined. -/
theorem single_hash_without_divisor :
    ¬ ∃ compressed, golombCompress ExtendedReal [2 ^ 55] = some compressed ∧
      0 ≤ compressed.div ∧ compressed.div ≤ 62 := by
  rintro ⟨compressed, hcompress, -⟩
  rw [golombCompress_sparse (List.cons_ne_nil _ _) (by decide)] at hcompress
  cases hcompress

end Usable

end Golomb
end PrivateSetIntersection
