import PrivateSetIntersection.Datastructure.GolombCode

/-! The decoder of `golomb.cpp`: standing at the first bit of a code word it reads the
word and stands behind it; at the padding it stops. -/
namespace PrivateSetIntersection
open Library BitString

namespace Golomb
variable {s : Bytes}

section Quotient

/-- The loop over the empty bytes stops in the byte of the next one bit `z`. -/
theorem skipZeros_one (fuel it offset quotient : Nat) {z : Nat} (hfuel : s.length < it + fuel)
    (hoffset : offset < 8) (hfrom : 8 * it + offset ≤ z) (hone : bitAt s z = true)
    (hzeros : ∀ i, 8 * it + offset ≤ i → i < z → bitAt s i = false) :
    ∃ offset', skipZeros s fuel it offset quotient =
        some (z / 8, offset', quotient + (8 * (z / 8) + offset' - (8 * it + offset))) ∧
      offset' ≤ z % 8 ∧ 8 * it + offset ≤ 8 * (z / 8) + offset' := by
  have hz : z < 8 * s.length := by
    by_contra hz
    rw [bitAt_of_le (Nat.not_lt.mp hz)] at hone
    cases hone
  induction fuel generalizing it offset quotient with
  | zero => omega
  | succ fuel ih =>
    have hit : it < s.length := by omega
    rw [skipZeros, if_pos hit.ne, List.getElem?_eq_getElem hit]
    dsimp only [Option.bind_eq_bind, Option.bind_some]
    split <;> rename_i hbyte
    · rw [shiftRight_eq_zero_iff hit] at hbyte
      have hnext : 8 * (it + 1) ≤ z := by
        by_contra hz'
        rw [hbyte z hfrom (Nat.not_le.mp hz')] at hone
        cases hone
      obtain ⟨offset', hskip, hle, hbehind⟩ := ih (it + 1) 0 (quotient + (CHAR_SIZE - offset)) (by omega)
        (by decide) hnext (fun i hi hiz => hzeros i (by omega) hiz)
      refine ⟨offset', ?_, hle, by omega⟩
      rw [hskip, CHAR_SIZE]
      congr 3
      omega
    · have hsame : z / 8 = it := by
        by_contra hne
        refine hbyte ((shiftRight_eq_zero_iff hit).mpr fun i hi hi' => hzeros i hi ?_)
        omega
      refine ⟨offset, ?_, by omega, by omega⟩
      rw [hsame, Nat.sub_self, Nat.add_zero]

theorem skipZeros_none (fuel it offset quotient : Nat) (hfuel : s.length < it + fuel)
    (hoffset : offset < 8) (hit : it ≤ s.length) (hzeros : ∀ i, 8 * it + offset ≤ i → bitAt s i = false) :
    ∃ offset' quotient', skipZeros s fuel it offset quotient = some (s.length, offset', quotient') := by
  induction fuel generalizing it offset quotient with
  | zero => omega
  | succ fuel ih =>
    rw [skipZeros]
    split <;> rename_i hend
    · have hlt : it < s.length := lt_of_le_of_ne hit hend
      rw [List.getElem?_eq_getElem hlt]
      dsimp only [Option.bind_eq_bind, Option.bind_some]
      rw [if_pos ((shiftRight_eq_zero_iff hlt).mpr fun i hi _ => hzeros i hi)]
      exact ih (it + 1) 0 _ (by omega) (by decide) hlt (fun i hi => hzeros i (by omega))
    · exact ⟨offset, quotient, by rw [not_not.mp hend]⟩

theorem ctz_eq {x n : Nat} (hn : n < 8) (hone : x.testBit n = true)
    (hzeros : ∀ k < n, x.testBit k = false) : ctz x = n := by
  have hfind : (List.range CHAR_SIZE).find? x.testBit = some n := by
    rw [List.find?_range_eq_some]
    exact ⟨hone, List.mem_range.mpr hn, fun k hk => by rw [hzeros k hk]; rfl⟩
  rw [ctz, hfind, Option.getD_some]

/-- The quotient in front of the next one bit: whole bytes of zeros first, then the trailing
zeros of the byte that holds the one. -/
theorem readQuotient_spec {pos quotient : Nat} (hone : bitAt s (pos + quotient) = true)
    (hzeros : ∀ k < quotient, bitAt s (pos + k) = false) :
    ∃ offset skipped byte, skipZeros s (s.length + 1) (pos / 8) (pos % 8) 0 =
        some ((pos + quotient) / 8, offset, skipped) ∧
      (pos + quotient) / 8 < s.length ∧ s[(pos + quotient) / 8]? = some byte ∧
      ctz (byte.toNat >>> offset) + offset = (pos + quotient) % 8 ∧
      skipped + ctz (byte.toNat >>> offset) = quotient := by
  have hbefore : ∀ i, 8 * (pos / 8) + pos % 8 ≤ i → i < pos + quotient → bitAt s i = false := by
    intro i hi hiq
    obtain ⟨k, rfl⟩ := Nat.exists_eq_add_of_le (Nat.div_add_mod pos 8 ▸ hi)
    exact hzeros k (Nat.lt_of_add_lt_add_left hiq)
  have hinside : pos + quotient < 8 * s.length := by
    by_contra hend
    rw [bitAt_of_le (Nat.not_lt.mp hend)] at hone
    cases hone
  obtain ⟨offset, hskip, hle, hbehind⟩ := skipZeros_one (s.length + 1) (pos / 8) (pos % 8) 0 (by omega)
    (by omega) (by omega) hone hbefore
  obtain ⟨z, hz⟩ : ∃ z, z = pos + quotient := ⟨_, rfl⟩
  rw [← hz] at hone hbefore hinside hskip hle hbehind ⊢
  have hbyte : z / 8 < s.length := by omega
  have hctz : ctz (s[z / 8].toNat >>> offset) = z % 8 - offset := by
    refine ctz_eq (by omega) ?_ fun k hk => ?_
    · rw [Nat.testBit_shiftRight, testBit_getElem hbyte (by omega),
        show 8 * (z / 8) + (offset + (z % 8 - offset)) = z by omega, hone]
    · rw [Nat.testBit_shiftRight, testBit_getElem hbyte (by omega)]
      exact hbefore _ (by omega) (by omega)
  refine ⟨offset, _, s[z / 8], hskip, hbyte, List.getElem?_eq_getElem hbyte, ?_, ?_⟩
  · rw [hctz, Nat.sub_add_cancel hle]
  · rw [hctz]
    omega

end Quotient

section Remainder

/-- The loop over the bytes of a remainder collects the bits of `word` that stand there. -/
theorem readRemainder_spec {div word : Nat} (hword : word < 2 ^ div) (fuel it binaryIdx binaryStart remainder : Nat)
    (hfuel : div - binaryIdx < fuel) (hstart : binaryStart < 8)
    (hroom : 8 * it + binaryStart + (div - binaryIdx) ≤ 8 * s.length)
    (hread : ∀ k, remainder.testBit k = (decide (k < binaryIdx) && word.testBit k))
    (hbits : ∀ k, binaryIdx ≤ k → k < div →
      bitAt s (8 * it + binaryStart + (k - binaryIdx)) = word.testBit k) :
    readRemainder s div fuel it binaryIdx binaryStart remainder = some
      (if binaryIdx < div then (8 * it + binaryStart + (div - binaryIdx) + 7) / 8 else it, word) := by
  induction fuel generalizing it binaryIdx binaryStart remainder with
  | zero => exact absurd hfuel (Nat.not_lt_zero _)
  | succ fuel ih =>
    rw [readRemainder]
    by_cases hmore : binaryIdx < div
    · have hit : it < s.length := by omega
      have hcast : ((div : Int) - binaryIdx).toNat = div - binaryIdx := by omega
      rw [if_pos (Int.ofNat_lt.mpr hmore), if_pos hmore, hcast, List.getElem?_eq_getElem hit, CHAR_SIZE]
      dsimp only [Option.bind_eq_bind, Option.bind_some]
      obtain ⟨numBits, hnumBits⟩ : ∃ n, n = min (8 - binaryStart) (div - binaryIdx) := ⟨_, rfl⟩
      rw [← hnumBits]
      rw [ih (it + 1) (binaryIdx + numBits) 0 _ (by omega) (by decide) (by omega)]
      · congr 2
        split <;> omega
      · intro k
        rw [Nat.testBit_or, hread, Nat.testBit_shiftLeft, Nat.testBit_and, Nat.testBit_shiftRight,
          Nat.one_shiftLeft, Nat.testBit_two_pow_sub_one]
        by_cases hold : k < binaryIdx
        · simp [hold, Nat.lt_add_right numBits hold]
        · by_cases hnew : k < binaryIdx + numBits
          · rw [testBit_getElem hit (by omega), ← Nat.add_assoc, hbits k (by omega) (by omega)]
            simp [hold, hnew, Nat.not_lt.mp hold, show k - binaryIdx < numBits by omega]
          · simp [hold, hnew, show ¬ k - binaryIdx < numBits by omega]
      · intro k hk hkdiv
        rw [← hbits k (by omega) hkdiv]
        congr 1
        omega
    · rw [if_neg (by omega), if_neg hmore]
      have hdone : remainder = word := by
        apply Nat.eq_of_testBit_eq
        intro k
        rw [hread]
        by_cases hk : k < binaryIdx
        · rw [decide_eq_true hk, Bool.true_and]
        · rw [Nat.testBit_lt_two_pow (hword.trans_le (Nat.pow_le_pow_right (by decide) (by omega))),
            Bool.and_false]
      rw [hdone]

end Remainder

section Word

theorem quotient_or_remainder (div delta : Nat) :
    (delta >>> div) <<< div ||| delta % 2 ^ div = delta := by
  rw [← Nat.shiftLeft_add_eq_or_of_lt (Nat.mod_lt _ (Nat.two_pow_pos div)), Nat.shiftLeft_eq,
    Nat.shiftRight_eq_div_pow, Nat.mul_comm, Nat.div_add_mod]

def decoderAt (pos : Nat) (prefixSum : Int) : Decoder := ⟨pos / 8, pos % 8, prefixSum⟩

/-- The byte the decoder goes on from: the remainder's loop ran one past it, unless the word
ended with a byte. -/
private theorem nextByte_eq (div z : Nat) :
    (if 0 < (div : Int) ∧ (z + 1 + div) % 8 ≠ 0 then
      (if 0 < div then (8 * ((z + 1) / 8) + (z + 1) % 8 + (div - 0) + 7) / 8 else (z + 1) / 8) - 1
      else if 0 < div then (8 * ((z + 1) / 8) + (z + 1) % 8 + (div - 0) + 7) / 8 else (z + 1) / 8) =
      (z + 1 + div) / 8 := by
  rw [Nat.div_add_mod]
  split <;> rename_i hinside
  · rw [if_pos (Int.natCast_pos.mp hinside.1)]
    omega
  · split <;> omega

/-- A code word at bit `pos` is read whole, and added to the sum. -/
theorem decodeDelta_word {div : Nat} (hdiv : div < 64) (delta pos : Nat) (sum : Int)
    (hroom : pos + (codeWord div delta).length ≤ 8 * s.length)
    (hword : ∀ k < (codeWord div delta).length, bitAt s (pos + k) = (codeWord div delta).getD k false) :
    decodeDelta s div (decoderAt pos sum) = some (some
      (decoderAt (pos + (codeWord div delta).length) (int64 (sum + int64 delta)))) := by
  rw [length_codeWord] at hroom hword
  simp only [length_codeWord, codeWord_getD] at hword ⊢
  have hsum := quotient_or_remainder div delta
  have hmod : delta % 2 ^ div < 2 ^ div := Nat.mod_lt _ (Nat.two_pow_pos div)
  generalize delta >>> div = quotient at *
  generalize delta % 2 ^ div = remainder at *
  have hone : bitAt s (pos + quotient) = true := by
    rw [hword quotient (by omega), decide_eq_true rfl, Bool.true_or]
  have hzeros : ∀ k < quotient, bitAt s (pos + k) = false := by
    intro k hk
    rw [hword k (by omega), decide_eq_false hk.ne, decide_eq_false (by omega), Bool.false_and,
      Bool.or_false]
  obtain ⟨offset, skipped, byte, hskip, hlt, hget, hoffset, hquotient⟩ := readQuotient_spec hone hzeros
  -- the one bit, and the position after it
  obtain ⟨z, hz⟩ : ∃ z, z = pos + quotient := ⟨_, rfl⟩
  rw [← hz] at hskip hlt hget hoffset
  have hstart : (z % 8 + 1) % 8 = (z + 1) % 8 := Nat.mod_add_mod z 8 1
  have hnext : (if (z + 1) % 8 = 0 then z / 8 + 1 else z / 8) = (z + 1) / 8 := by
    split <;> omega
  have hremainder := readRemainder_spec (s := s) hmod (div + 1) ((z + 1) / 8) 0 ((z + 1) % 8) 0
    (by omega) (by omega) (by omega) (fun k => by simp) (fun k _ hk => by
      rw [Nat.div_add_mod, Nat.sub_zero, show z + 1 + k = pos + (quotient + 1 + k) by omega,
        hword _ (by omega), decide_eq_false (by omega), decide_eq_true (by omega), Bool.false_or,
        Bool.true_and, Nat.add_sub_cancel_left])
  have hend : (z % 8 + 1 + div) % 8 = (z + 1 + div) % 8 := by omega
  rw [decodeDelta, decoderAt, hskip]
  dsimp only [Option.bind_eq_bind, Option.bind_some]
  rw [if_neg hlt.ne, hget]
  dsimp only [Option.bind_eq_bind, Option.bind_some]
  rw [hoffset, CHAR_SIZE, hstart, hnext, Int.toNat_natCast, hremainder]
  dsimp only [Option.bind_eq_bind, Option.bind_some]
  rw [show shiftCount div = some div from if_pos (by omega)]
  dsimp only [Option.bind_eq_bind, Option.bind_some]
  rw [hquotient, hsum, hend, nextByte_eq, decoderAt,
    show pos + (quotient + 1 + div) = z + 1 + div by omega]
  rfl

/-- At the padding there is no word. -/
theorem decodeDelta_end (div : Nat) {pos : Nat} (sum : Int) (hpos : pos ≤ 8 * s.length)
    (hzeros : ∀ i, pos ≤ i → bitAt s i = false) :
    decodeDelta s div (decoderAt pos sum) = some none := by
  obtain ⟨offset', quotient', hskip⟩ := skipZeros_none (s.length + 1) (pos / 8) (pos % 8) 0 (by omega)
    (by omega) (by omega) (fun i hi => hzeros i (Nat.div_add_mod pos 8 ▸ hi))
  rw [decodeDelta, decoderAt, hskip]
  dsimp only [Option.bind_eq_bind, Option.bind_some]
  rw [if_pos rfl]
  rfl

end Word

section Merge
variable {ι : Type}

/-- Behind an entry that is not below `v` there is none below `v` to drop. -/
private theorem dropWhile_below {pair : Int × ι} {arr : List (Int × ι)}
    (harr : (pair :: arr).Pairwise (fun a b => a.1 ≤ b.1)) {v : Int} (h : v ≤ pair.1) :
    arr.dropWhile (fun pair => decide (pair.1 < v)) = arr := by
  cases arr with
  | nil => rfl
  | cons next arr =>
    refine List.dropWhile_cons_of_neg ?_
    have hle := (List.pairwise_cons.mp harr).1 next List.mem_cons_self
    simpa using h.trans hle

theorem dropWhile_to_value {arr : List (Int × ι)} (harr : arr.Pairwise (fun a b => a.1 ≤ b.1)) (v : Int) :
    (arr.dropWhile (fun pair => decide (pair.1 < v))).dropWhile (fun pair => decide (pair.1 = v)) =
      arr.filter (fun pair => v < pair.1) := by
  induction arr with
  | nil => rfl
  | cons pair arr ih =>
    obtain ⟨hfirst, hrest⟩ := List.pairwise_cons.mp harr
    have ih := ih hrest
    rcases lt_trichotomy pair.1 v with hlt | heq | hgt
    · rw [List.dropWhile_cons_of_pos (by simpa using hlt), List.filter_cons_of_neg (by simpa using hlt.le), ih]
    · rw [dropWhile_below harr heq.ge] at ih
      rw [List.dropWhile_cons_of_neg (by simp [heq]), List.dropWhile_cons_of_pos (by simpa using heq),
        List.filter_cons_of_neg (by simp [heq]), ih]
    · have hall : ∀ p ∈ pair :: arr, decide (v < p.1) = true := by
        intro p hp
        rcases List.mem_cons.mp hp with rfl | hp
        · exact decide_eq_true hgt
        · exact decide_eq_true (hgt.trans_le (hfirst p hp))
      rw [List.dropWhile_cons_of_neg (by simpa using hgt.le),
        List.dropWhile_cons_of_neg (by simpa using hgt.ne'), List.filter_eq_self.mpr hall]

/-- The entries of an ascending list whose values occur among ascending ones, split at
the first of these as the decoder does. -/
theorem filter_at_value {arr : List (Int × ι)} (harr : arr.Pairwise (fun a b => a.1 ≤ b.1)) {v : Int}
    {vs : List Int} (hvs : ∀ w ∈ vs, v < w) :
    arr.filter (fun pair => pair.1 ∈ v :: vs) =
      (arr.dropWhile (fun pair => decide (pair.1 < v))).takeWhile (fun pair => decide (pair.1 = v)) ++
      ((arr.dropWhile (fun pair => decide (pair.1 < v))).dropWhile (fun pair => decide (pair.1 = v))).filter
        (fun pair => pair.1 ∈ vs) := by
  induction arr with
  | nil => rfl
  | cons pair arr ih =>
    obtain ⟨hfirst, hrest⟩ := List.pairwise_cons.mp harr
    have ih := ih hrest
    rcases lt_trichotomy pair.1 v with hlt | heq | hgt
    · have hout : pair.1 ∉ v :: vs := by
        rw [List.mem_cons, not_or]
        exact ⟨hlt.ne, fun hin => (hlt.trans (hvs _ hin)).false⟩
      rw [List.filter_cons_of_neg (by simpa using hout), List.dropWhile_cons_of_pos (by simpa using hlt), ih]
    · rw [dropWhile_below harr heq.ge] at ih
      rw [List.filter_cons_of_pos (by simp [heq]), List.dropWhile_cons_of_neg (by simp [heq]),
        List.takeWhile_cons_of_pos (by simpa using heq), List.dropWhile_cons_of_pos (by simpa using heq), ih]
      rfl
    · rw [List.dropWhile_cons_of_neg (by simpa using hgt.le), List.takeWhile_cons_of_neg (by simpa using hgt.ne'),
        List.dropWhile_cons_of_neg (by simpa using hgt.ne'), List.nil_append]
      refine List.filter_congr fun p hp => ?_
      have hpv : v < p.1 := by
        rcases List.mem_cons.mp hp with rfl | hp
        · exact hgt
        · exact hgt.trans_le (hfirst p hp)
      simp [hpv.ne']

/-- The decoder's loop: of an ascending list it returns the indices whose values are
among those the remaining code words add up to. -/
theorem intersectFrom_spec {div : Nat} (hdiv : div < 64) (fuel pos prev : Nat) (ds : List Nat)
    (arr : List (Int × ι)) (res : List ι) (hfuel : ds.length < fuel)
    (hroom : pos + (ds.flatMap (codeWord div)).length ≤ 8 * s.length)
    (hbits : ∀ k, bitAt s (pos + k) = (ds.flatMap (codeWord div)).getD k false)
    (hvalues : ∀ v ∈ valuesFrom prev ds, v < 2 ^ 63) (hascending : (valuesFrom prev ds).Pairwise (· < ·))
    (harr : arr.Pairwise (fun a b => a.1 ≤ b.1)) :
    intersectFrom s div fuel (decoderAt pos prev) arr res = some (res ++
      (arr.filter (fun pair => pair.1 ∈ (valuesFrom prev ds).map Nat.cast)).map Prod.snd) := by
  induction ds generalizing fuel pos prev arr res with
  | nil =>
    obtain ⟨fuel, rfl⟩ : ∃ n, fuel = n + 1 := ⟨fuel - 1, by omega⟩
    have hend := decodeDelta_end div (prev : Int) (Nat.le_of_add_right_le hroom) fun i hi => by
      obtain ⟨k, rfl⟩ := Nat.exists_eq_add_of_le hi
      exact hbits k
    rw [intersectFrom, hend]
    simp [valuesFrom]
  | cons delta ds ih =>
    obtain ⟨fuel, rfl⟩ : ∃ n, fuel = n + 1 := ⟨fuel - 1, by omega⟩
    rw [List.flatMap_cons] at hroom hbits
    rw [List.length_append] at hroom
    obtain ⟨hfirst, hlater⟩ := List.pairwise_cons.mp hascending
    have hbound : prev + delta < 2 ^ 63 := hvalues _ List.mem_cons_self
    have hsum : int64 (prev + int64 delta) = (prev + delta : Nat) := by
      rw [int64_eq_self (x := delta) (by omega) (by omega), int64_eq_self (by omega) (by omega), Nat.cast_add]
    have hdelta := decodeDelta_word (s := s) hdiv delta pos (prev : Int) (by omega) fun k hk => by
      rw [hbits, List.getD_append _ _ _ _ hk]
    rw [hsum] at hdelta
    have hnext (k : Nat) : bitAt s (pos + (codeWord div delta).length + k) =
        (ds.flatMap (codeWord div)).getD k false := by
      rw [Nat.add_assoc, hbits, List.getD_append_right _ _ _ _ (Nat.le_add_right _ _), Nat.add_sub_cancel_left]
    have habove : ∀ w ∈ (valuesFrom (prev + delta) ds).map (Nat.cast : Nat → Int), (prev + delta : Nat) < w := by
      intro w hw
      obtain ⟨v, hv, rfl⟩ := List.mem_map.mp hw
      exact Int.ofNat_lt.mpr (hfirst v hv)
    rw [intersectFrom, hdelta]
    simp only [Option.bind_eq_bind, Option.bind_some, decoderAt]
    rw [valuesFrom, List.map_cons, filter_at_value harr habove]
    have hafter := (harr.sublist (List.dropWhile_sublist
      (fun pair => decide (pair.1 < ((prev + delta : Nat) : Int))))).sublist
      (List.dropWhile_sublist (fun pair => decide (pair.1 = ((prev + delta : Nat) : Int))))
    split <;> rename_i hempty
    · rw [hempty, List.filter_nil, List.append_nil]
      rfl
    · have hrest := ih fuel (pos + (codeWord div delta).length) (prev + delta) _
        (res ++ (List.takeWhile (fun pair => decide (pair.1 = ((prev + delta : Nat) : Int)))
          (List.dropWhile (fun pair => decide (pair.1 < ((prev + delta : Nat) : Int))) arr)).map Prod.snd)
        (by simpa using hfuel) (by omega) hnext (fun v hv => hvalues v (List.mem_cons_of_mem _ hv)) hlater
        hafter
      rw [List.map_append, ← List.append_assoc]
      exact hrest

end Merge

end Golomb
end PrivateSetIntersection
