import PrivateSetIntersection.Datastructure.HashRange

/-! What a compressed set takes: with the divisor estimated over the reals, a few bits an
element more than the logarithm of the rate. -/
namespace PrivateSetIntersection
open Library ExtendedReal BitString

namespace Golomb

section Bits

/-- Every code word has its quotient in ones, and as many bits besides as any other. -/
theorem length_flatMap_codeWord (div : Nat) (ds : List Nat) :
    (ds.flatMap (codeWord div)).length = (ds.map (· >>> div)).sum + ds.length * (div + 1) := by
  induction ds with
  | nil => simp
  | cons delta ds ih =>
    rw [List.flatMap_cons, List.length_append, length_codeWord, ih, List.map_cons, List.sum_cons, List.length_cons,
      Nat.succ_mul]
    omega

theorem sum_quotients_le (div : Nat) (ds : List Nat) : (ds.map (· >>> div)).sum * 2 ^ div ≤ ds.sum := by
  induction ds with
  | nil => exact Nat.le_of_eq (Nat.zero_mul _)
  | cons delta ds ih =>
    rw [List.map_cons, List.sum_cons, List.sum_cons, Nat.add_mul, Nat.shiftRight_eq_div_pow]
    exact Nat.add_le_add (Nat.div_mul_le_self delta _) ih

theorem length_deltas_le (start : Bool) (prev : Nat) (sortedArr : List Nat) :
    (deltas start prev sortedArr).length ≤ sortedArr.length := by
  induction sortedArr generalizing start prev with
  | nil => exact Nat.le_refl 0
  | cons curr sortedArr ih =>
    rw [deltas]
    split
    · exact Nat.succ_le_succ (ih false curr)
    · exact (ih start prev).trans (Nat.le_succ _)

theorem sum_deltas_le {sortedArr : List Nat} (hsorted : sortedArr.Pairwise (· ≤ ·)) (start : Bool) {prev : Nat}
    (hprev : ∀ v ∈ sortedArr, prev ≤ v) : prev + (deltas start prev sortedArr).sum ≤ sortedArr.getLastD prev := by
  induction sortedArr generalizing start prev with
  | nil => exact Nat.le_refl prev
  | cons curr sortedArr ih =>
    obtain ⟨hcurr, hsorted⟩ := List.pairwise_cons.mp hsorted
    have hle := hprev curr List.mem_cons_self
    rw [deltas, List.getLastD_cons]
    split <;> rename_i hnew
    · rw [List.sum_cons, ← Nat.add_assoc, Nat.add_sub_cancel' hle]
      exact ih hsorted false hcurr
    · obtain rfl : curr = prev := by
        rw [not_or] at hnew
        omega
      exact ih hsorted start hcurr

/-- With any divisor a shift is defined for. -/
theorem size_le_of_div {D : Type} [DoubleArithmetic D] {sortedArr : List Nat} {divParam : Int}
    {compressed : GolombCompressed} (hsorted : sortedArr.Pairwise (· ≤ ·))
    (h : golombCompress D sortedArr divParam = some compressed) {div : Nat} (hdiv : compressed.div = div)
    (hlt : div < 64) :
    (8 * compressed.compressed.length : ℝ) ≤
      sortedArr.length * (div + 1) + sortedArr.getLastD 0 / 2 ^ div + 7 := by
  have hpacks := golombCompress_packs h (by rw [hdiv]; omega)
  have hcount := length_deltas_le true 0 sortedArr
  have hsum := sum_deltas_le hsorted true fun v _ => Nat.zero_le v
  rw [Nat.zero_add] at hsum
  have hquotients : (((deltas true 0 sortedArr).map (· >>> div)).sum : ℝ) ≤ sortedArr.getLastD 0 / 2 ^ div := by
    rw [le_div_iff₀ (by positivity)]
    exact_mod_cast (sum_quotients_le div _).trans hsum
  have hwords : ((deltas true 0 sortedArr).length * (div + 1) : ℝ) ≤ sortedArr.length * (div + 1) := by
    gcongr
  have hlength : 8 * compressed.compressed.length ≤
      ((deltas true 0 sortedArr).map (· >>> div)).sum + (deltas true 0 sortedArr).length * (div + 1) + 7 := by
    rw [← length_flatMap_codeWord, hpacks.length, hdiv, Int.toNat_natCast]
    omega
  have hcast : (8 * compressed.compressed.length : ℝ) ≤
      ((deltas true 0 sortedArr).map (· >>> div)).sum + (deltas true 0 sortedArr).length * (div + 1) + 7 := by
    exact_mod_cast hlength
  linarith

end Bits

section Divisor
variable {p : ℝ}

/-- `-log2(1 - p)` is not above `2p` up to one half, where the two meet. -/
theorem neg_logb_le (hpos : 0 ≤ p) (hhalf : p ≤ 1 / 2) : -Real.logb 2 (1 - p) ≤ 2 * p := by
  have hconcave := strictConcaveOn_log_Ioi.concaveOn.2 (Set.mem_Ioi.mpr one_pos)
    (Set.mem_Ioi.mpr (by norm_num : (0 : ℝ) < 1 / 2)) (by linarith : 0 ≤ 1 - 2 * p) (by linarith : 0 ≤ 2 * p)
    (by ring)
  have hpos2 : 0 < Real.log 2 := Real.log_pos one_lt_two
  rw [smul_eq_mul, smul_eq_mul, smul_eq_mul, smul_eq_mul, Real.log_one, one_div, Real.log_inv,
    show (1 - 2 * p) * 1 + 2 * p * 2⁻¹ = 1 - p by ring] at hconcave
  rw [Real.logb, ← neg_div, div_le_iff₀ hpos2]
  linarith

theorem divisorOf_eq (hlo : 1 / 2 ^ 54 ≤ p) (hlt : p < 1) :
    divisorOf (real p) =
      toWord 63 (real ((0 ⊔ roundAway (-Real.logb 2 (-Real.logb 2 (1 - p))) : ℤ) : ℝ)) := by
  have hpos : 0 < p := lt_of_lt_of_le (by positivity) hlo
  rw [divisorOf, sub_exact hlo, log2_pos (sub_pos.mpr hlt), neg, log2_pos (hpos.trans_le (le_neg_logb hpos hlt)), neg,
    map, max_real, Int.cast_max, Int.cast_zero]

/-- Three is more than `2 ^ (3 / 2)`. -/
theorem three_halves_le_logb : 3 / 2 ≤ Real.logb 2 3 := by
  have hle : Real.logb 2 (2 ^ 3) ≤ Real.logb 2 (3 ^ 2) :=
    Real.logb_le_logb_of_le one_lt_two (by norm_num) (by norm_num)
  rw [Real.logb_pow, Real.logb_pow, Real.logb_self_eq_one one_lt_two] at hle
  push_cast at hle
  linarith

/-- Up to one half, the estimate is within three halves of the logarithm of the gap. -/
theorem divisor_cost_sparse (hpos : 0 < p) (hhalf : p ≤ 1 / 2) {div : Nat}
    (hdiv : (div : ℤ) = 0 ⊔ roundAway (-Real.logb 2 (-Real.logb 2 (1 - p)))) :
    div + 1 + 1 / p / 2 ^ div ≤ Real.logb 2 (1 / p) + 9 / 2 := by
  have hle := le_neg_logb hpos (by linarith)
  have hge := neg_logb_le hpos.le hhalf
  generalize -Real.logb 2 (1 - p) = y at hle hge hdiv
  have hlog : Real.logb 2 (1 / p) = -Real.logb 2 p := by rw [one_div, Real.logb_inv]
  have hupper : -Real.logb 2 y ≤ Real.logb 2 (1 / p) := by
    have hmono := Real.logb_le_logb_of_le one_lt_two hpos hle
    linarith
  have hlower : Real.logb 2 (1 / p) - 1 ≤ -Real.logb 2 y := by
    have hmono := Real.logb_le_logb_of_le one_lt_two (hpos.trans_le hle) hge
    rw [Real.logb_mul two_ne_zero hpos.ne', Real.logb_self_eq_one one_lt_two] at hmono
    linarith
  have hone : 1 ≤ Real.logb 2 (1 / p) := by
    have hmono := Real.logb_le_logb_of_le one_lt_two two_pos ((le_div_iff₀ hpos).mpr (by linarith : 2 * p ≤ 1))
    rwa [Real.logb_self_eq_one one_lt_two] at hmono
  have hcast : (div : ℝ) = 0 ⊔ (roundAway (-Real.logb 2 y) : ℝ) := by exact_mod_cast hdiv
  have hmost : (div : ℝ) ≤ Real.logb 2 (1 / p) + 1 / 2 := by
    rw [hcast]
    exact max_le (by linarith) ((roundAway_le_add_half _).trans (by linarith))
  have hleast : Real.logb 2 (1 / p) - 3 / 2 ≤ div := by
    have hround := sub_half_le_roundAway (-Real.logb 2 y)
    have hmax := le_max_right (0 : ℝ) (roundAway (-Real.logb 2 y))
    rw [hcast]
    linarith
  have hquotient : 1 / p / 2 ^ div ≤ 3 := by
    rw [div_le_iff₀ (by positivity)]
    refine (Real.logb_le_logb one_lt_two (by positivity) (by positivity)).mp ?_
    rw [Real.logb_mul three_ne_zero (by positivity), Real.logb_pow, Real.logb_self_eq_one one_lt_two]
    linarith [three_halves_le_logb]
  linarith

/-- What an average gap of `1 / p` costs with the divisor that is estimated for it. -/
theorem divisor_cost (hlo : 1 / 2 ^ 54 ≤ p) {div : Nat} (h : divisorOf (real p) = some (div : Int)) :
    div + 1 + 1 / p / 2 ^ div ≤ 0 ⊔ Real.logb 2 (1 / p) + 9 / 2 := by
  have hpos : 0 < p := lt_of_lt_of_le (by positivity) hlo
  have hzero {bound : ℝ} (hdiv : (div : Int) = 0) (hgap : 1 / p ≤ 2) :
      div + 1 + 1 / p / 2 ^ div ≤ 0 ⊔ bound + 9 / 2 := by
    obtain rfl : div = 0 := by exact_mod_cast hdiv
    have hmax := le_max_left 0 bound
    rw [Nat.cast_zero, pow_zero, div_one]
    linarith
  rcases le_or_gt 1 p with hdense | hlt
  · rw [divisorOf_dense hdense] at h
    exact hzero (Option.some.inj h).symm (by rw [div_le_iff₀ hpos]; linarith)
  · rw [divisorOf_eq hlo hlt] at h
    have hdiv := eq_of_toWord h
    rcases le_or_gt p (1 / 2) with hhalf | hhalf
    · have hcost := divisor_cost_sparse hpos hhalf hdiv
      have hmax := le_max_right 0 (Real.logb 2 (1 / p))
      linarith
    · refine hzero ?_ (by rw [div_le_iff₀ hpos]; linarith)
      have hinner : 1 ≤ -Real.logb 2 (1 - p) := by
        have hmono := Real.logb_le_logb_of_le one_lt_two (sub_pos.mpr hlt) (by linarith : 1 - p ≤ 2⁻¹)
        rw [Real.logb_inv, Real.logb_self_eq_one one_lt_two] at hmono
        linarith
      have houter : -Real.logb 2 (-Real.logb 2 (1 - p)) ≤ ((0 : ℤ) : ℝ) := by
        rw [Int.cast_zero, neg_nonpos]
        exact Real.logb_nonneg one_lt_two hinner
      rw [hdiv]
      exact max_eq_left (roundAway_le houter)

end Divisor

/-- The compressed string of an ascending list takes the logarithm of its average gap for
every value, and no more than four and a half bits beside. -/
theorem size_le_logb {sortedArr : List Nat} {compressed : GolombCompressed} (hne : sortedArr ≠ [])
    (hsorted : sortedArr.Pairwise (· ≤ ·)) (h : golombCompress ExtendedReal sortedArr = some compressed) :
    (8 * compressed.compressed.length : ℝ) ≤
      sortedArr.length * (0 ⊔ Real.logb 2 ((sortedArr.getLastD 0 + 1) / sortedArr.length) + 9 / 2) + 7 := by
  have hrange := golombCompress_div h
  obtain ⟨div, hdiv⟩ : ∃ div : Nat, compressed.div = div := ⟨compressed.div.toNat, by omega⟩
  have hestimate : estimateDiv ExtendedReal sortedArr = some (div : Int) := by
    obtain ⟨chosen, state, hchosen, -, rfl⟩ := (golombCompress_eq_some_iff hne).mp h
    rw [← hdiv]
    exact hchosen
  have hdense : (1 : ℝ) / 2 ^ 54 ≤ sortedArr.length / (sortedArr.getLastD 0 + 1) := by
    refine not_lt.mp fun hsparse => ?_
    rw [estimateDiv_sparse hne (sparse_iff.mp hsparse)] at hestimate
    cases hestimate
  have hsize := size_le_of_div hsorted h hdiv (by omega)
  rw [estimateDiv_eq hne] at hestimate
  have hcost := divisor_cost hdense hestimate
  have hlength : (0 : ℝ) < sortedArr.length := by exact_mod_cast List.length_pos_iff.mpr hne
  rw [one_div_div] at hcost
  have hlast : (sortedArr.getLastD 0 : ℝ) / 2 ^ div ≤
      sortedArr.length * ((sortedArr.getLastD 0 + 1) / sortedArr.length / 2 ^ div) := by
    rw [← mul_div_assoc, mul_div_cancel₀ _ hlength.ne']
    gcongr
    linarith
  calc (8 * compressed.compressed.length : ℝ)
      ≤ sortedArr.length * (div + 1 + (sortedArr.getLastD 0 + 1) / sortedArr.length / 2 ^ div) + 7 := by linarith
    _ ≤ _ := by gcongr

end Golomb

namespace GCS
variable {sha256 : Bytes → Nat} {S : ComparisonSort} {rate : ℝ} {numClientInputs : Int} {elements : List Bytes}
  {gcs : GCS}

theorem rate_of_create (h : create sha256 S (real rate) numClientInputs elements = .ok gcs) : 0 < rate ∧ rate < 1 := by
  rw [create] at h
  split at h <;> rename_i hcheck
  · cases h
  · simpa [DoubleArithmetic.le, DoubleArithmetic.ofInt, ExtendedReal.le] using hcheck

theorem hashes_of_create (h : create sha256 S (real rate) numClientInputs elements = .ok gcs) (hne : elements ≠ []) :
    ∃ hashes : List Nat, hashes.length = elements.length ∧ hashes.Pairwise (· ≤ ·) ∧
      Golomb.golombCompress ExtendedReal hashes = some ⟨gcs.div, gcs.golomb⟩ ∧
      (hashes.getLastD 0 + 1 : ℝ) ≤ (max numClientInputs elements.length : Int) / rate := by
  obtain ⟨hpos, -⟩ := rate_of_create h
  obtain ⟨hcast, hashes, hhashes, hcompressed⟩ := create_eq_ok h
  have hrange : 0 < gcs.hashRange := by
    by_contra hrange
    rw [hashes_undefined sha256 hrange hne] at hhashes
    cases hhashes
  rw [hashes_eq sha256 hrange] at hhashes
  cases hhashes
  have hlength : (sortedHashes sha256 S gcs.hashRange elements).length = elements.length := by
    rw [sortedHashes, (S.perm _ _).length_eq, List.length_map]
  refine ⟨_, hlength, sortedHashes_ascending sha256 S elements _, hcompressed, ?_⟩
  have hback : ((sortedHashes sha256 S gcs.hashRange elements).getLastD 0 : Int) < gcs.hashRange := by
    rw [List.getLastD_eq_getLast?]
    cases hlast : (sortedHashes sha256 S gcs.hashRange elements).getLast? with
    | none =>
      rw [List.getLast?_eq_none_iff.mp hlast] at hlength
      exact absurd (List.length_eq_zero_iff.mp hlength.symm) hne
    | some v => exact mem_sortedHashes sha256 S elements hrange (List.mem_of_getLast? hlast)
  have hquotient : (0 : ℝ) ≤ (max numClientInputs elements.length : Int) / rate := by
    have hmax : (0 : ℝ) ≤ (max numClientInputs elements.length : Int) := by exact_mod_cast le_max_of_le_right (by omega)
    positivity
  have hword : toWord 63 (real ((max numClientInputs elements.length : Int) / rate)) = some gcs.hashRange := by
    rw [← hcast]
    exact congrArg (toWord 63) (div_real hpos.ne').symm
  calc ((sortedHashes sha256 S gcs.hashRange elements).getLastD 0 + 1 : ℝ) ≤ gcs.hashRange := by exact_mod_cast hback
    _ ≤ _ := le_of_toWord hquotient hword

/-- A compressed set takes at most the logarithm of the rate for every element, and four and a
half bits beside; more only as the client's inputs outnumber the elements. -/
theorem compressed_set_size (h : create sha256 S (real rate) numClientInputs elements = .ok gcs) :
    (8 * gcs.golomb.length : ℝ) ≤ elements.length *
      (Real.logb 2 ((max numClientInputs elements.length : Int) / rate / elements.length) + 9 / 2) + 7 := by
  by_cases hne : elements = []
  · subst hne
    obtain ⟨-, hashes, hhashes, hcompressed⟩ := create_eq_ok h
    obtain rfl : hashes = [] := (Option.some.inj hhashes).symm
    rw [(S.perm _ []).eq_nil] at hcompressed
    have hempty : gcs.golomb = [] := (congrArg GolombCompressed.compressed (Option.some.inj hcompressed)).symm
    rw [hempty]
    simp
  · obtain ⟨hpos, hlt⟩ := rate_of_create h
    obtain ⟨hashes, hlength, hsorted, hcompressed, hback⟩ := hashes_of_create h hne
    have hcount : 0 < elements.length := List.length_pos_iff.mpr hne
    have hne' : hashes ≠ [] := List.length_pos_iff.mp (hlength ▸ hcount)
    have hsize := Golomb.size_le_logb hne' hsorted hcompressed
    rw [hlength] at hsize
    have hn : (0 : ℝ) < elements.length := by exact_mod_cast hcount
    have hmax : (elements.length : ℝ) ≤ (max numClientInputs elements.length : Int) := by
      exact_mod_cast le_max_right numClientInputs (elements.length : Int)
    have hone : 1 ≤ (max numClientInputs elements.length : Int) / rate / elements.length := by
      rw [one_le_div hn, le_div_iff₀ hpos]
      nlinarith
    have hgap : Real.logb 2 ((hashes.getLastD 0 + 1) / elements.length) ≤
        Real.logb 2 ((max numClientInputs elements.length : Int) / rate / elements.length) := by
      refine Real.logb_le_logb_of_le one_lt_two (by positivity) ?_
      gcongr
    calc (8 * gcs.golomb.length : ℝ)
        ≤ elements.length * (0 ⊔ Real.logb 2 ((hashes.getLastD 0 + 1) / elements.length) + 9 / 2) + 7 := hsize
      _ ≤ _ := by
        gcongr
        exact max_le (Real.logb_nonneg one_lt_two hone) hgap

/-- Two elements, for a client with four. -/
theorem compressed_set_size_two :
    ∃ gcs, create (fun x => (x.headD 0).toNat) .insertion (real (1 / 8)) 4 [[2], [1]] = .ok gcs ∧
      (8 * gcs.golomb.length : ℝ) ≤ 2 * (Real.logb 2 ((max 4 (2 : Nat) : Int) / (1 / 8) / 2) + 9 / 2) + 7 := by
  obtain ⟨chosen, hchosen, hlo, hhi⟩ := @Golomb.estimateDiv_usable [1, 2] (List.cons_ne_nil _ _) (by decide)
  have hdefault : Golomb.chosenDiv ExtendedReal [1, 2] (-1) = some chosen := hchosen
  obtain ⟨⟨div, compressed⟩, hcompressed, -⟩ := Golomb.exists_golombCompress hdefault ⟨hlo, by omega⟩
  have hcast : DoubleArithmetic.toInt64 (DoubleArithmetic.div (DoubleArithmetic.ofInt
      (max 4 ([[2], [1]] : List Bytes).length)) (real (1 / 8))) = some 32 := by
    have hquotient : DoubleArithmetic.div (DoubleArithmetic.ofInt (max 4 ([[2], [1]] : List Bytes).length))
        (real (1 / 8)) = real ((32 : Int) : ℝ) := by
      refine (div_real (by norm_num)).trans ?_
      norm_num
    rw [hquotient]
    exact toWord_intCast (by decide) (by decide)
  have hcreate : create (fun x => (x.headD 0).toNat) .insertion (real (1 / 8)) 4 [[2], [1]] =
      .ok ⟨compressed, div, 32⟩ := by
    rw [create, if_neg (by simp [DoubleArithmetic.le, DoubleArithmetic.ofInt, ExtendedReal.le]; norm_num)]
    dsimp only
    rw [hcast]
    change StatusOr.ofOption (Golomb.golombCompress ExtendedReal [1, 2]) >>= _ = _
    rw [hcompressed]
    rfl
  exact ⟨_, hcreate, compressed_set_size hcreate⟩

end GCS
end PrivateSetIntersection
