import PrivateSetIntersection.Datastructure.GolombDivisor
import PrivateSetIntersection.Datastructure.GcsRoundTrip

/-! The hash range of a `GCS`, with the rate corrected for the client's queries and the
divisions exact: when the cast to an `int64_t` is defined, and what rests on it. -/
namespace PrivateSetIntersection
open Library ExtendedReal BitString

namespace GCS
variable (sha256 : Bytes → Nat) (S : ComparisonSort)

noncomputable def correctedFpr (fpr : ℝ) (numClientInputs : Int) : ExtendedReal :=
  DoubleArithmetic.div (real fpr) (DoubleArithmetic.ofInt numClientInputs)

noncomputable def quotient (fpr : ℝ) (numClientInputs : Int) (elements : List Bytes) : ℝ :=
  (max numClientInputs elements.length : Int) / (fpr / numClientInputs)

/-- The hash range is the floor of the quotient, and no sum over the hashes leaves 63 bits. -/
structure HashRangeFits (fpr : ℝ) (numClientInputs : Int) (elements : List Bytes) : Prop where
  quotient_bounds : 1 ≤ quotient fpr numClientInputs elements ∧
    quotient fpr numClientInputs elements < 2 ^ 63
  cast : DoubleArithmetic.toInt64 (DoubleArithmetic.div (DoubleArithmetic.ofInt
      (max numClientInputs elements.length)) (correctedFpr fpr numClientInputs)) =
    some ⌊quotient fpr numClientInputs elements⌋
  range : 0 < ⌊quotient fpr numClientInputs elements⌋ ∧
    ⌊quotient fpr numClientInputs elements⌋ < 2 ^ 63
  created : ∀ gcs, create sha256 S (correctedFpr fpr numClientInputs) numClientInputs elements = .ok gcs →
    gcs.hashRange = ⌊quotient fpr numClientInputs elements⌋
  hash : ∀ element, ∃ h, hash sha256 element ⌊quotient fpr numClientInputs elements⌋ = some h ∧
    (h : Int) < ⌊quotient fpr numClientInputs elements⌋
  back : let hashes := sortedHashes sha256 S ⌊quotient fpr numClientInputs elements⌋ elements
    hashes.getLastD 0 + 1 < 2 ^ 63
  encoded : let hashes := sortedHashes sha256 S ⌊quotient fpr numClientInputs elements⌋ elements
    ∀ compressed, Golomb.golombCompress ExtendedReal hashes = some compressed →
      Packs compressed.compressed ((Golomb.deltas true 0 hashes).flatMap
        (Golomb.codeWord compressed.div.toNat))
  sums : let hashes := sortedHashes sha256 S ⌊quotient fpr numClientInputs elements⌋ elements
    ∀ v ∈ Golomb.valuesFrom 0 (Golomb.deltas true 0 hashes), v < 2 ^ 63

section Rate
variable {fpr : ℝ} {numClientInputs : Int} (elements : List Bytes)

theorem correctedFpr_eq (hn : 1 ≤ numClientInputs) :
    correctedFpr fpr numClientInputs = real (fpr / numClientInputs) :=
  div_real (Int.cast_ne_zero.mpr (by omega))

theorem rate_refused_iff (hfpr : 0 < fpr) (hn : 1 ≤ numClientInputs) :
    (DoubleArithmetic.le (correctedFpr fpr numClientInputs) (DoubleArithmetic.ofInt 0) = true ∨
      DoubleArithmetic.le (DoubleArithmetic.ofInt 1) (correctedFpr fpr numClientInputs) = true) ↔
        numClientInputs ≤ fpr := by
  have hpos : (0 : ℝ) < numClientInputs := by exact_mod_cast hn
  have hrate : 0 < fpr / numClientInputs := div_pos hfpr hpos
  rw [correctedFpr_eq hn]
  simp only [DoubleArithmetic.le, DoubleArithmetic.ofInt, ExtendedReal.le, decide_eq_true_eq,
    Int.cast_zero, Int.cast_one, hrate.not_ge, false_or, one_le_div hpos]

/-- The check refuses a rate of one or more, and nothing else is an error. -/
theorem create_error_iff (hfpr : 0 < fpr) (hn : 1 ≤ numClientInputs) :
    (∃ e, create sha256 S (correctedFpr fpr numClientInputs) numClientInputs elements = .error e) ↔
      numClientInputs ≤ fpr := by
  have hrefused := rate_refused_iff hfpr hn
  rw [create]
  split <;> rename_i hcheck
  · exact iff_of_true ⟨_, rfl⟩ (hrefused.mp hcheck)
  · refine iff_of_false ?_ (fun h => hcheck (hrefused.mpr h))
    rintro ⟨e, herror⟩
    obtain ⟨hashRange, -, herror⟩ := StatusOr.ofOption_bind_eq_error.mp herror
    obtain ⟨hashes, -, herror⟩ := StatusOr.ofOption_bind_eq_error.mp herror
    obtain ⟨compressed, -, herror⟩ := StatusOr.ofOption_bind_eq_error.mp herror
    cases herror

theorem quotient_eq : quotient fpr numClientInputs elements =
    (max numClientInputs elements.length : Int) * numClientInputs / fpr := by
  rw [quotient, div_div_eq_mul_div]

theorem one_le_quotient (hfpr : 0 < fpr) (hn : 1 ≤ numClientInputs) (hrate : fpr < numClientInputs) :
    1 ≤ quotient fpr numClientInputs elements := by
  have hmax : (1 : ℝ) ≤ (max numClientInputs elements.length : Int) := by
    exact_mod_cast hn.trans (le_max_left _ _)
  rw [quotient_eq, le_div_iff₀ hfpr, one_mul]
  calc fpr ≤ 1 * numClientInputs := by rw [one_mul]; exact hrate.le
    _ ≤ _ := by gcongr

theorem quotient_lt_iff (hfpr : 0 < fpr) : quotient fpr numClientInputs elements < 2 ^ 63 ↔
    (max numClientInputs elements.length : Int) * numClientInputs < 2 ^ 63 * fpr := by
  rw [quotient_eq, div_lt_iff₀ hfpr]

theorem div_correctedFpr (hfpr : 0 < fpr) (hn : 1 ≤ numClientInputs) :
    DoubleArithmetic.div (DoubleArithmetic.ofInt (max numClientInputs elements.length))
      (correctedFpr fpr numClientInputs) = real (quotient fpr numClientInputs elements) := by
  have hpos : (0 : ℝ) < numClientInputs := by exact_mod_cast hn
  rw [correctedFpr_eq hn]
  exact div_real (div_pos hfpr hpos).ne'

/-- Below `2 ^ 63` the cast cuts the fraction off. -/
theorem cast_quotient (hfpr : 0 < fpr) (hn : 1 ≤ numClientInputs)
    (hquotient : 0 ≤ quotient fpr numClientInputs elements ∧
      quotient fpr numClientInputs elements < 2 ^ 63) :
    DoubleArithmetic.toInt64 (DoubleArithmetic.div (DoubleArithmetic.ofInt
        (max numClientInputs elements.length)) (correctedFpr fpr numClientInputs)) =
      some ⌊quotient fpr numClientInputs elements⌋ := by
  rw [div_correctedFpr elements hfpr hn]
  exact toWord_real hquotient.1 hquotient.2

/-- From `2 ^ 63` on the cast, and with it the call, is undefined. -/
theorem create_undefined (hfpr : 0 < fpr) (hn : 1 ≤ numClientInputs) (hrate : fpr < numClientInputs)
    (hquotient : 2 ^ 63 ≤ quotient fpr numClientInputs elements) :
    create sha256 S (correctedFpr fpr numClientInputs) numClientInputs elements = .undefined := by
  have hcast : DoubleArithmetic.toInt64 (real (quotient fpr numClientInputs elements)) = none :=
    toWord_eq_none hquotient
  rw [create, if_neg (fun h => absurd ((rate_refused_iff hfpr hn).mp h) hrate.not_ge)]
  dsimp only
  rw [div_correctedFpr elements hfpr hn, hcast]
  rfl

end Rate

section Fits
variable {hashRange : Int} (elements : List Bytes)

theorem hashOf_lt (hrange : 0 < hashRange) (element : Bytes) :
    (hashOf sha256 hashRange element : Int) < hashRange := by
  have hlt := Nat.mod_lt (sha256 element) (Int.lt_toNat.mpr hrange)
  rw [hashOf]
  omega

theorem mem_sortedHashes (hrange : 0 < hashRange) {v : Nat}
    (hv : v ∈ sortedHashes sha256 S hashRange elements) : (v : Int) < hashRange := by
  obtain ⟨element, -, rfl⟩ := List.mem_map.mp ((S.mem_sort _ _ v).mp hv)
  exact hashOf_lt sha256 hrange element

theorem sortedHashes_ascending (hashRange : Int) :
    (sortedHashes sha256 S hashRange elements).Pairwise (· ≤ ·) :=
  S.sort_ascending (show ByKey id _ from fun _ _ => decide_eq_true_iff) _

/-- The largest hash is below the range, so its successor is an `int64_t`. -/
theorem back_lt (hrange : 0 < hashRange ∧ hashRange < 2 ^ 63) :
    (sortedHashes sha256 S hashRange elements).getLastD 0 + 1 < 2 ^ 63 := by
  rw [List.getLastD_eq_getLast?]
  cases hlast : (sortedHashes sha256 S hashRange elements).getLast? with
  | none => decide
  | some v =>
    have hv := mem_sortedHashes sha256 S elements hrange.1 (List.mem_of_getLast? hlast)
    rw [Option.getD_some]
    omega

/-- The sums are the hashes, each once. -/
theorem sums_lt (hrange : 0 < hashRange ∧ hashRange < 2 ^ 63) {v : Nat}
    (hv : v ∈ Golomb.valuesFrom 0 (Golomb.deltas true 0 (sortedHashes sha256 S hashRange elements))) :
    v < 2 ^ 63 := by
  obtain ⟨hmem, -⟩ := Golomb.valuesFrom_deltas (sortedHashes_ascending sha256 S elements hashRange)
    true 0 fun v _ => Nat.zero_le v
  have hlt := mem_sortedHashes sha256 S elements hrange.1 ((hmem v).mp hv).1
  omega

end Fits

section Result
variable {fpr : ℝ} {numClientInputs : Int} (elements : List Bytes)

theorem hashRangeFits (hfpr : 0 < fpr) (hn : 1 ≤ numClientInputs) (hrate : fpr < numClientInputs)
    (hquotient : quotient fpr numClientInputs elements < 2 ^ 63) :
    HashRangeFits sha256 S fpr numClientInputs elements := by
  have hone := one_le_quotient elements hfpr hn hrate
  have hcast := cast_quotient elements hfpr hn ⟨zero_le_one.trans hone, hquotient⟩
  have hrange : 0 < ⌊quotient fpr numClientInputs elements⌋ ∧
      ⌊quotient fpr numClientInputs elements⌋ < 2 ^ 63 :=
    ⟨Int.floor_pos.mpr hone, Int.floor_lt.mpr (by exact_mod_cast hquotient)⟩
  exact {
    quotient_bounds := ⟨hone, hquotient⟩
    cast := hcast
    range := hrange
    created := fun gcs h => Option.some.inj ((create_eq_ok h).1.symm.trans hcast)
    hash := fun element => ⟨_, hash_eq sha256 hrange.1 element, hashOf_lt sha256 hrange.1 element⟩
    back := back_lt sha256 S elements hrange
    encoded := fun compressed h =>
      have hdiv := Golomb.golombCompress_div h
      Golomb.golombCompress_packs h ⟨hdiv.1, by omega⟩
    sums := fun v hv => sums_lt sha256 S elements hrange hv }

/-- The hash range fits, or the rate is refused, exactly where the corrected rate is one or
more or the quotient is below `2 ^ 63`. -/
theorem hashRange_fits_iff (hfpr : 0 < fpr) (hn : 1 ≤ numClientInputs) :
    ((∃ e, create sha256 S (correctedFpr fpr numClientInputs) numClientInputs elements = .error e) ∨
        HashRangeFits sha256 S fpr numClientInputs elements) ↔
      numClientInputs ≤ fpr ∨
        (max numClientInputs elements.length : Int) * numClientInputs < 2 ^ 63 * fpr := by
  rw [create_error_iff sha256 S elements hfpr hn, ← quotient_lt_iff elements hfpr]
  constructor
  · exact Or.imp_right fun h => h.quotient_bounds.2
  · intro h
    rcases le_or_gt (numClientInputs : ℝ) fpr with hrefused | hrate
    · exact Or.inl hrefused
    · exact Or.inr (hashRangeFits sha256 S elements hfpr hn hrate (h.resolve_left hrate.not_ge))

/-- A thousand queries against ten elements, at one in a million. -/
theorem hashRange_fits_iff_small :
    (((∃ e, create (fun _ => 5) .insertion (correctedFpr (1 / 10 ^ 6) 1000) 1000
          (List.replicate 10 [1]) = .error e) ∨
        HashRangeFits (fun _ => 5) .insertion (1 / 10 ^ 6) 1000 (List.replicate 10 [1])) ↔
      ((1000 : Int) : ℝ) ≤ 1 / 10 ^ 6 ∨
        (max 1000 (List.replicate 10 [(1 : UInt8)]).length : Int) * ((1000 : Int) : ℝ) <
          2 ^ 63 * (1 / 10 ^ 6)) ∧
      (max 1000 (List.replicate 10 [(1 : UInt8)]).length : Int) * ((1000 : Int) : ℝ) <
          2 ^ 63 * (1 / 10 ^ 6 : ℝ) :=
  ⟨hashRange_fits_iff (fun _ => 5) .insertion (List.replicate 10 [1]) (by norm_num) (by norm_num),
    by norm_num⟩

/-- Ten thousand elements and a thousand queries at a rate of `1e-12`: the quotient is `1e19`. -/
theorem client_test_rate_overflows :
    let elements := (List.range 10000).map (fun i => [UInt8.ofNat (i / 256), UInt8.ofNat i])
    ¬ ((∃ e, create (fun _ => 5) .insertion (correctedFpr (1 / 10 ^ 12) 1000) 1000 elements = .error e) ∨
        HashRangeFits (fun _ => 5) .insertion (1 / 10 ^ 12) 1000 elements) ∧
      create (fun _ => 5) .insertion (correctedFpr (1 / 10 ^ 12) 1000) 1000 elements = .undefined := by
  intro elements
  have hlength : elements.length = 10000 := by rw [List.length_map, List.length_range]
  have hquotient : 2 ^ 63 ≤ quotient (1 / 10 ^ 12) 1000 elements := by
    rw [quotient_eq, hlength]
    norm_num
  have hundefined := create_undefined (fun _ => 5) .insertion elements (by norm_num) (by norm_num)
    (by norm_num) hquotient
  refine ⟨?_, hundefined⟩
  rintro (⟨e, herror⟩ | hfits)
  · rw [hundefined] at herror
    cases herror
  · exact absurd hfits.quotient_bounds.2 (not_lt.mpr hquotient)

end Result

end GCS
end PrivateSetIntersection
