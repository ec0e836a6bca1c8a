import PrivateSetIntersection.Datastructure.GolombRoundTrip
import PrivateSetIntersection.Protocol.PsiClient

/-! `golomb_intersect` on a string nobody has checked. The loop over a remainder does not
compare its iterator with the end, so a string may stop inside a code word. -/
namespace PrivateSetIntersection
open Library BitString

namespace Golomb

section Words

/-- A one behind some zeros, with as many bits behind it as a remainder has, is a code word. -/
theorem exists_codeWord (q : Nat) (low : List Bool) :
    ∃ delta, codeWord low.length delta = List.replicate q false ++ true :: low := by
  obtain ⟨n, hn, hlow⟩ := exists_testBit low
  have hquotient : (q * 2 ^ low.length + n) >>> low.length = q := by
    rw [Nat.shiftRight_eq_div_pow, Nat.mul_comm, Nat.mul_add_div (Nat.two_pow_pos _),
      Nat.div_eq_of_lt hn, Nat.add_zero]
  refine ⟨q * 2 ^ low.length + n, ?_⟩
  rw [codeWord, hquotient]
  conv_rhs => rw [hlow]
  refine congrArg (fun bits => List.replicate q false ++ true :: bits) (List.map_congr_left fun i hi => ?_)
  rw [List.mem_range] at hi
  rw [Nat.mul_comm, Nat.testBit_two_pow_mul_add _ hn, if_pos hi]

/-- A list of bits is whole code words, and behind them zeros or a word that is cut short. -/
theorem exists_words (div : Nat) (bits : List Bool) :
    ∃ (ds : List Nat) (rest : List Bool), bits = ds.flatMap (codeWord div) ++ rest ∧
      (rest = List.replicate rest.length false ∨
        ∃ q low, rest = List.replicate q false ++ true :: low ∧ low.length < div) := by
  induction hn : bits.length using Nat.strong_induction_on generalizing bits with
  | _ n ih =>
    rcases zeros_or_one bits with hzeros | ⟨q, r, hone⟩
    · exact ⟨[], bits, rfl, Or.inl hzeros⟩
    · by_cases hcut : r.length < div
      · exact ⟨[], bits, rfl, Or.inr ⟨q, r, hone, hcut⟩⟩
      · obtain ⟨delta, hword⟩ := exists_codeWord q (r.take div)
        rw [List.length_take_of_le (Nat.not_lt.mp hcut)] at hword
        have hlength : (r.drop div).length < n := by
          rw [← hn, hone, List.length_append, List.length_cons, List.length_drop]
          omega
        obtain ⟨ds, rest, hrest, hend⟩ := ih _ hlength (r.drop div) rfl
        refine ⟨delta :: ds, rest, ?_, hend⟩
        rw [List.flatMap_cons, hword, List.append_assoc, ← hrest, List.append_assoc, List.cons_append,
          List.take_append_drop, hone]

end Words

section Cut
variable {s : Bytes}

/-- Where fewer bits are left than the remainder has, its loop reads past the end. -/
theorem readRemainder_cut {div : Nat} (fuel it binaryIdx binaryStart remainder : Nat)
    (hmore : binaryIdx < div) (hstart : binaryStart < 8)
    (hcut : 8 * s.length < 8 * it + binaryStart + (div - binaryIdx)) :
    readRemainder s div fuel it binaryIdx binaryStart remainder = none := by
  induction fuel generalizing it binaryIdx binaryStart remainder with
  | zero => rfl
  | succ fuel ih =>
    rw [readRemainder, if_pos (Int.ofNat_lt.mpr hmore)]
    cases hbyte : s[it]? with
    | none => rfl
    | some byte =>
      obtain ⟨hit, -⟩ := List.getElem?_eq_some_iff.mp hbyte
      have hcast : ((div : Int) - binaryIdx).toNat = div - binaryIdx := by omega
      rw [hcast, CHAR_SIZE]
      exact ih _ _ _ _ (by omega) (by decide) (by omega)

theorem decodeDelta_cut {div q pos : Nat} (sum : Int) (hone : bitAt s (pos + q) = true)
    (hzeros : ∀ k < q, bitAt s (pos + k) = false) (hcut : 8 * s.length < pos + q + 1 + div)
    (hdiv : 0 < div) : decodeDelta s div (decoderAt pos sum) = none := by
  obtain ⟨offset, skipped, byte, hskip, hlt, hget, hoffset, -⟩ := readQuotient_spec hone hzeros
  generalize pos + q = z at *
  have hstart : (z % 8 + 1) % 8 = (z + 1) % 8 := Nat.mod_add_mod z 8 1
  have hnext : (if (z + 1) % 8 = 0 then z / 8 + 1 else z / 8) = (z + 1) / 8 := by
    split <;> omega
  have hremainder := readRemainder_cut (s := s) (div + 1) ((z + 1) / 8) 0 ((z + 1) % 8) 0 hdiv
    (Nat.mod_lt _ (by decide)) (by omega)
  rw [decodeDelta, decoderAt, hskip]
  dsimp only [Option.bind_eq_bind, Option.bind_some]
  rw [if_neg hlt.ne, hget]
  dsimp only [Option.bind_eq_bind, Option.bind_some]
  rw [hoffset, CHAR_SIZE, hstart, hnext, Int.toNat_natCast, hremainder]
  rfl

end Cut

section Run
variable {ι : Type} {s : Bytes}

/-- The sums the decoder comes to, which wrap at 64 bits. -/
def prefixSums : Int → List Nat → List Int
  | _, [] => []
  | sum, delta :: ds => int64 (sum + int64 delta) :: prefixSums (int64 (sum + int64 delta)) ds

/-- There is a code word, and every pair is passed by the sum of one of them. -/
def Passed (sum : Int) (ds : List Nat) (arr : List (Int × ι)) : Prop :=
  ds ≠ [] ∧ ∀ pair ∈ arr, ∃ sum' ∈ prefixSums sum ds, pair.1 ≤ sum'

theorem passed_cons_iff {sum : Int} {delta : Nat} {ds : List Nat} {arr : List (Int × ι)} :
    Passed sum (delta :: ds) arr ↔
      arr.filter (fun pair => int64 (sum + int64 delta) < pair.1) = [] ∨
        Passed (int64 (sum + int64 delta)) ds
          (arr.filter (fun pair => int64 (sum + int64 delta) < pair.1)) := by
  rw [Passed, Passed, prefixSums]
  generalize int64 (sum + int64 delta) = sum
  simp only [List.exists_mem_cons_iff, List.mem_filter, decide_eq_true_eq, List.filter_eq_nil_iff, not_lt]
  constructor
  · rintro ⟨-, hall⟩
    by_cases hpassed : ∀ pair ∈ arr, pair.1 ≤ sum
    · exact Or.inl hpassed
    · push Not at hpassed
      obtain ⟨pair, hpair, habove⟩ := hpassed
      refine Or.inr ⟨?_, fun pair hpair => (hall pair hpair.1).resolve_left hpair.2.not_ge⟩
      rintro rfl
      obtain ⟨_, hmem, -⟩ := (hall pair hpair).resolve_left habove.not_ge
      cases hmem
  · rintro (hpassed | ⟨-, hlater⟩)
    · exact ⟨List.cons_ne_nil _ _, fun pair hpair => Or.inl (hpassed pair hpair)⟩
    · refine ⟨List.cons_ne_nil _ _, fun pair hpair => ?_⟩
      by_cases hle : pair.1 ≤ sum
      · exact Or.inl hle
      · exact Or.inr (hlater pair ⟨hpair, not_le.mp hle⟩)

/-- The decoder's loop over whole code words: it returns if it can stop behind the last of
them, or has passed every pair before. -/
theorem intersectFrom_returns_iff {div : Nat} (hdiv : div < 64) (fuel pos : Nat) (sum : Int) (ds : List Nat)
    (arr : List (Int × ι)) (res : List ι) (hfuel : ds.length < fuel)
    (hroom : pos + (ds.flatMap (codeWord div)).length ≤ 8 * s.length)
    (hbits : ∀ k < (ds.flatMap (codeWord div)).length,
      bitAt s (pos + k) = (ds.flatMap (codeWord div)).getD k false)
    (harr : arr.Pairwise (fun a b => a.1 ≤ b.1)) {ended : Option (Option Decoder)}
    (hended : ended = none ∨ ended = some none)
    (hlast : ∀ sum, decodeDelta s div (decoderAt (pos + (ds.flatMap (codeWord div)).length) sum) = ended) :
    (∃ out, intersectFrom s div fuel (decoderAt pos sum) arr res = some out) ↔
      ended = some none ∨ Passed sum ds arr := by
  induction ds generalizing fuel pos sum arr res with
  | nil =>
    obtain ⟨fuel, rfl⟩ : ∃ n, fuel = n + 1 := ⟨fuel - 1, by omega⟩
    have hnot : ¬ Passed sum [] arr := fun h => h.1 rfl
    have hstop : decodeDelta s div (decoderAt pos sum) = ended := hlast sum
    rw [intersectFrom, hstop]
    rcases hended with rfl | rfl
    · exact iff_of_false (by simp) (by simpa using hnot)
    · exact iff_of_true ⟨res, rfl⟩ (Or.inl rfl)
  | cons delta ds ih =>
    obtain ⟨fuel, rfl⟩ : ∃ n, fuel = n + 1 := ⟨fuel - 1, by omega⟩
    rw [List.flatMap_cons] at hroom hbits
    rw [List.length_append] at hroom hbits
    have hdelta := decodeDelta_word (s := s) hdiv delta pos sum (by omega) fun k hk => by
      rw [hbits k (by omega), List.getD_append _ _ _ _ hk]
    rw [passed_cons_iff, intersectFrom, hdelta]
    simp only [Option.bind_eq_bind, Option.bind_some, decoderAt, dropWhile_to_value harr]
    generalize int64 (sum + int64 delta) = sum
    split <;> rename_i hempty
    · exact iff_of_true ⟨_, rfl⟩ (Or.inr (Or.inl hempty))
    · rw [or_iff_right hempty]
      refine ih fuel _ sum _ _ (by simpa using hfuel) (by omega) (fun k hk => ?_) (harr.filter _) fun sum => ?_
      · rw [Nat.add_assoc, hbits _ (by omega), List.getD_append_right _ _ _ _ (Nat.le_add_right _ _),
          Nat.add_sub_cancel_left]
      · rw [Nat.add_assoc, ← List.length_append, ← List.flatMap_cons]
        exact hlast sum

/-- The string ends inside the remainder of the code word that follows those of `ds`. -/
def CutShort (s : Bytes) (div : Nat) (ds : List Nat) : Prop :=
  ∃ q low, bits s = ds.flatMap (codeWord div) ++ (List.replicate q false ++ true :: low) ∧
    low.length < div

private theorem bitAt_of_bits {words rest : List Bool} (h : bits s = words ++ rest) {k : Nat}
    (hk : k < words.length) : bitAt s (0 + k) = words.getD k false := by
  rw [Nat.zero_add, ← bits_getD, h, List.getD_append _ _ _ _ hk]

private theorem bitAt_of_rest {words rest : List Bool} (h : bits s = words ++ rest) (k : Nat) :
    bitAt s (words.length + k) = rest.getD k false := by
  rw [← bits_getD, h, List.getD_append_right _ _ _ _ (Nat.le_add_right _ _), Nat.add_sub_cancel_left]

/-- Behind its last whole code word a string ends, or is cut short. -/
private theorem decodeDelta_rest {div : Nat} {ds : List Nat} {rest : List Bool}
    (h : bits s = ds.flatMap (codeWord div) ++ rest) :
    (rest = List.replicate rest.length false →
        ∀ sum, decodeDelta s div (decoderAt (0 + (ds.flatMap (codeWord div)).length) sum) = some none) ∧
      ∀ q low, rest = List.replicate q false ++ true :: low → low.length < div →
        ∀ sum, decodeDelta s div (decoderAt (0 + (ds.flatMap (codeWord div)).length) sum) = none := by
  have hlength := congrArg List.length h
  rw [length_bits, List.length_append] at hlength
  rw [Nat.zero_add]
  constructor
  · intro hzeros sum
    refine decodeDelta_end div sum (by omega) fun i hi => ?_
    obtain ⟨k, rfl⟩ := Nat.exists_eq_add_of_le hi
    rw [bitAt_of_rest h, hzeros, List.getD_eq_getElem?_getD, List.getElem?_replicate]
    split <;> rfl
  · rintro q low rfl hcut sum
    rw [List.length_append, List.length_replicate, List.length_cons] at hlength
    refine decodeDelta_cut (q := q) sum ?_ (fun k hk => ?_) (by omega) (Nat.zero_lt_of_lt hcut)
    · rw [bitAt_of_rest h, List.getD_append_right _ _ _ _ (by simp)]
      simp
    · rw [bitAt_of_rest h, List.getD_append _ _ _ _ (by simpa using hk), List.getD_replicate _ hk]

private theorem golombIntersect_words {div : Nat} (hdiv : div < 64) (hempty : s ≠ []) {ds : List Nat}
    {rest : List Bool} (h : bits s = ds.flatMap (codeWord div) ++ rest) {arr : List (Int × ι)}
    (harr : arr.Pairwise (fun a b => a.1 ≤ b.1)) {ended : Option (Option Decoder)}
    (hended : ended = none ∨ ended = some none)
    (hlast : ∀ sum, decodeDelta s div (decoderAt (0 + (ds.flatMap (codeWord div)).length) sum) = ended) :
    (∃ out, golombIntersect s div arr = some out) ↔ ended = some none ∨ Passed 0 ds arr := by
  have hlength := congrArg List.length h
  rw [length_bits, List.length_append] at hlength
  have hwords := length_le_flatMap_codeWord div ds
  rw [golombIntersect, if_neg hempty]
  exact intersectFrom_returns_iff hdiv (8 * s.length + 1) 0 0 ds arr [] (by omega) (by omega)
    (fun k hk => bitAt_of_bits h hk) harr hended hlast

/-- On a received string the decoder returns, every access inside the string, exactly if
the string is not cut short, or every pair is passed by the code words before the cut. -/
theorem golombIntersect_returns_iff (info : GCSInfo) (hdiv : 0 ≤ info.div ∧ info.div ≤ 62)
    {arr : List (Int × ι)} (harr : arr.Pairwise (fun a b => a.1 ≤ b.1)) :
    (∃ out, golombIntersect info.bits info.div arr = some out) ↔
      ∀ ds, CutShort info.bits info.div.toNat ds → Passed 0 ds arr := by
  obtain ⟨div, hcast⟩ := Int.eq_ofNat_of_zero_le hdiv.1
  have hwidth : div < 64 := by omega
  rw [hcast, Int.toNat_natCast]
  generalize info.bits = s
  by_cases hempty : s = []
  · rw [golombIntersect, if_pos hempty]
    refine iff_of_true ⟨[], rfl⟩ ?_
    rintro ds ⟨q, low, hbits, -⟩
    have hlength := congrArg List.length hbits
    simp [hempty] at hlength
  · constructor
    · rintro hreturns ds ⟨q, low, hbits, hcut⟩
      have hend := (decodeDelta_rest hbits).2 q low rfl hcut
      exact ((golombIntersect_words hwidth hempty hbits harr (Or.inl rfl) hend).mp hreturns).resolve_left
        (Option.some_ne_none _).symm
    · intro hpassed
      obtain ⟨ds, rest, hbits, hzeros | ⟨q, low, rfl, hcut⟩⟩ := exists_words div (bits s)
      · have hend := (decodeDelta_rest hbits).1 hzeros
        exact (golombIntersect_words hwidth hempty hbits harr (Or.inr rfl) hend).mpr (Or.inl rfl)
      · have hend := (decodeDelta_rest hbits).2 q low rfl hcut
        exact (golombIntersect_words hwidth hempty hbits harr (Or.inl rfl) hend).mpr
          (Or.inr (hpassed ds ⟨q, low, hbits, hcut⟩))

/-- Two code words and padding. -/
theorem golombIntersect_returns_iff_padded :
    (∃ out, golombIntersect [71, 0] 2 [((3 : Int), 0), (4, 1)] = some out) ↔
      ∀ ds, CutShort [71, 0] 2 ds → Passed 0 ds [((3 : Int), 0), (4, 1)] :=
  golombIntersect_returns_iff ⟨2, 16, [71, 0]⟩ (by decide) (by decide)

/-- One byte whose last bit ends a quotient, and a divisor of eight: the remainder is read
behind the string, for any client. -/
theorem remainder_past_the_end :
    golombIntersect [0x80] 8 ([] : List (Int × Nat)) = none ∧
      golombIntersect [0x80] 8 [((5 : Int), 0)] = none ∧
      PsiClient.getIntersection (fun _ => 5) .insertion .sequential ⟨⟨.ok, .ok, .ok⟩, true⟩
        (.gcs ⟨8, 16, [0x80]⟩) ⟨[[1]]⟩ = .undefined := by
  decide +kernel

end Run

end Golomb
end PrivateSetIntersection
