import PrivateSetIntersection.Library.BitString
import PrivateSetIntersection.Datastructure.Golomb

/-! The code words of `golomb.cpp`: the encoder packs one for every distinct value, and
the decoder, standing at the first bit of one, reads it and stands behind it. -/
namespace PrivateSetIntersection
open Library BitString

namespace Golomb

/-- The code word of a delta: the quotient in unary, a one, and the low bits. -/
def codeWord (div delta : Nat) : List Bool :=
  List.replicate (delta >>> div) false ++ true :: (List.range div).map delta.testBit

@[simp] theorem length_codeWord (div delta : Nat) :
    (codeWord div delta).length = delta >>> div + 1 + div := by
  simp [codeWord]
  omega

theorem codeWord_getD (div delta k : Nat) : (codeWord div delta).getD k false =
    (decide (k = delta >>> div) ||
      (decide (delta >>> div + 1 ≤ k) && (delta % 2 ^ div).testBit (k - (delta >>> div + 1)))) := by
  rcases Nat.lt_trichotomy k (delta >>> div) with hlt | rfl | hgt
  · rw [codeWord, List.getD_append _ _ _ _ (by simpa using hlt), List.getD_replicate _ hlt]
    simp [hlt.ne, Nat.not_le.mpr (hlt.trans (Nat.lt_succ_self _))]
  · rw [codeWord, List.getD_append_right _ _ _ _ (by simp)]
    simp
  · obtain ⟨j, rfl⟩ := Nat.exists_eq_add_of_le (Nat.succ_le_of_lt hgt)
    rw [codeWord, List.getD_append_right _ _ _ _ (by simp; omega), List.length_replicate,
      show delta >>> div + 1 + j - delta >>> div = j + 1 by omega, List.getD_cons_succ,
      Nat.add_sub_cancel_left, Nat.testBit_mod_two_pow, List.getD_eq_getElem?_getD, List.getElem?_map]
    by_cases hj : j < div
    · rw [List.getElem?_range hj]
      simp [hj, show delta >>> div + 1 + j ≠ delta >>> div by omega]
    · rw [List.getElem?_eq_none (by simpa using hj)]
      simp [hj, show delta >>> div + 1 + j ≠ delta >>> div by omega]

section Encoder

theorem orByte_spec (s : Bytes) {i : Nat} (hi : i < s.length) (v : Nat) :
    ∃ s', orByte s i v = some s' ∧ s'.length = s.length ∧
      ∀ j, bitAt s' j = (bitAt s j || (decide (j / 8 = i) && v.testBit (j % 8))) := by
  refine ⟨_, if_pos hi, List.length_modify _ _ _, fun j => ?_⟩
  rw [bitAt_modify_or s hi, testBit_ofNat]

/-- A word laid down from bit `binaryStart` of byte `i` on: the bits that fall in that byte,
and the rest from the next byte on. -/
private theorem remainder_bits (remainder binaryIdx i j : Nat) {binaryStart : Nat}
    (hstart : binaryStart < 8) :
    ((decide (j / 8 = i) && (decide (binaryStart ≤ j % 8) &&
        remainder.testBit (binaryIdx + (j % 8 - binaryStart)))) ||
      (decide (8 * (i + 1) + 0 ≤ j) &&
        remainder.testBit (binaryIdx + (8 - binaryStart) + (j - (8 * (i + 1) + 0))))) =
      (decide (8 * i + binaryStart ≤ j) &&
        remainder.testBit (binaryIdx + (j - (8 * i + binaryStart)))) := by
  by_cases hlo : 8 * i + binaryStart ≤ j
  · by_cases hbyte : j / 8 = i
    · have hlater : ¬ 8 * (i + 1) + 0 ≤ j := by omega
      have hbit : binaryStart ≤ j % 8 := by omega
      have hindex : j % 8 - binaryStart = j - (8 * i + binaryStart) := by omega
      simp only [hbyte, hlater, hlo, hbit, hindex, decide_true, decide_false, Bool.true_and,
        Bool.false_and, Bool.or_false]
    · have hlater : 8 * (i + 1) + 0 ≤ j := by omega
      have hindex : binaryIdx + (8 - binaryStart) + (j - (8 * (i + 1) + 0)) =
          binaryIdx + (j - (8 * i + binaryStart)) := by omega
      simp only [hbyte, hlater, hlo, hindex, decide_true, decide_false, Bool.true_and, Bool.false_and,
        Bool.false_or]
  · have hlater : ¬ 8 * (i + 1) + 0 ≤ j := by omega
    have hearlier : ¬ (j / 8 = i ∧ binaryStart ≤ j % 8) := by omega
    rw [← Bool.and_assoc, ← Bool.decide_and, decide_eq_false hearlier, decide_eq_false hlater,
      decide_eq_false hlo]
    simp only [Bool.false_and, Bool.or_false]

/-- The remainder's bits from `binaryIdx` on are or-ed in, from bit `binaryStart` of byte `i` on. -/
theorem writeRemainder_spec {remainder div : Nat} (hremainder : remainder < 2 ^ div) (fuel : Nat)
    (s : Bytes) (binaryIdx binaryStart i : Nat) (hstart : binaryStart < 8)
    (hfuel : div - binaryIdx < fuel)
    (hroom : 8 * i + binaryStart + (div - binaryIdx) ≤ 8 * s.length) :
    ∃ s', writeRemainder remainder div fuel s binaryIdx binaryStart i = some s' ∧
      s'.length = s.length ∧ ∀ j, bitAt s' j = (bitAt s j || (decide (8 * i + binaryStart ≤ j) &&
        remainder.testBit (binaryIdx + (j - (8 * i + binaryStart))))) := by
  induction fuel generalizing s binaryIdx binaryStart i with
  | zero => exact absurd hfuel (Nat.not_lt_zero _)
  | succ fuel ih =>
    rw [writeRemainder]
    split <;> rename_i hmore
    · have hi : i < s.length := by omega
      obtain ⟨s₁, hor, hlength₁, hbits₁⟩ :=
        orByte_spec s hi ((remainder >>> binaryIdx) <<< binaryStart)
      obtain ⟨s₂, hrest, hlength₂, hbits₂⟩ := ih s₁ (binaryIdx + (CHAR_SIZE - binaryStart)) 0 (i + 1)
        (by decide) (by rw [CHAR_SIZE]; omega) (by rw [hlength₁, CHAR_SIZE]; omega)
      refine ⟨s₂, ?_, hlength₂.trans hlength₁, fun j => ?_⟩
      · rw [hor]
        exact hrest
      · rw [hbits₂, hbits₁, Nat.testBit_shiftLeft, Nat.testBit_shiftRight, Bool.or_assoc, CHAR_SIZE,
          remainder_bits remainder binaryIdx i j hstart]
    · refine ⟨s, rfl, rfl, fun j => ?_⟩
      have hhigh : remainder < 2 ^ (binaryIdx + (j - (8 * i + binaryStart))) :=
        hremainder.trans_le (Nat.pow_le_pow_right (by decide) (by omega))
      rw [Nat.testBit_lt_two_pow hhigh, Bool.and_false, Bool.or_false]

private theorem resize_spec (s : Bytes) {n : Nat} (hn : s.length ≤ n) :
    (resize s n).length = n ∧ ∀ j, bitAt (resize s n) j = bitAt s j := by
  rw [resize, List.take_of_length_le hn]
  refine ⟨?_, bitAt_append_zeros s _⟩
  rw [List.length_append, List.length_replicate]
  omega

/-- Where the encoder stands after the code words `bits`. -/
structure Encoded (state : Encoder) (bits : List Bool) : Prop where
  packs : Packs state.compressed bits
  resIdx : state.resIdx = bits.length

/-- The bits a code word adds make the packing of the list with the code word appended. -/
private theorem packs_append {s : Bytes} {bits : List Bool} (div delta : Nat) (h : Packs s bits)
    (s' : Bytes) (hlength : s'.length = (bits.length + (delta >>> div + 1 + div) + 7) / 8)
    (hbits : ∀ j, bitAt s' j = (bitAt s j || (decide (j = bits.length + delta >>> div) ||
      (decide (bits.length + delta >>> div + 1 ≤ j) &&
        (delta % 2 ^ div).testBit (j - (bits.length + delta >>> div + 1)))))) :
    Packs s' (bits ++ codeWord div delta) where
  length := by rw [hlength, List.length_append, length_codeWord]
  bitAt j := by
    rw [hbits, h.bitAt]
    by_cases hj : j < bits.length
    · have hlt : j < bits.length + delta >>> div := Nat.lt_add_right _ hj
      rw [List.getD_append _ _ _ _ hj, decide_eq_false hlt.ne,
        decide_eq_false (Nat.not_le.mpr (Nat.lt_succ_of_lt hlt))]
      simp only [Bool.false_and, Bool.or_false]
    · obtain ⟨i, rfl⟩ := Nat.exists_eq_add_of_le (Nat.not_lt.mp hj)
      rw [List.getD_append_right _ _ _ _ (Nat.le_add_right _ _),
        List.getD_eq_default _ _ (Nat.le_add_right _ _), Nat.add_sub_cancel_left, codeWord_getD,
        Bool.false_or]
      simp only [Nat.add_assoc, Nat.add_left_cancel_iff, Nat.add_le_add_iff_left, Nat.add_sub_add_left]

/-- A new value appends its code word. -/
theorem encodeElement_spec {div : Int} (hdiv : 0 ≤ div ∧ div < 64) {state : Encoder} {bits : List Bool}
    (h : Encoded state bits) {curr : Nat} (hnew : state.start ∨ curr > state.prev) :
    ∃ state', encodeElement div state curr = some state' ∧ state'.start = false ∧ state'.prev = curr ∧
      Encoded state' (bits ++ codeWord div.toNat (curr - state.prev)) := by
  obtain ⟨k, rfl⟩ := Int.eq_ofNat_of_zero_le hdiv.1
  have hcount : shiftCount k = some k := if_pos hdiv
  have hremainder : (curr - state.prev) &&& (1 <<< k - 1) = (curr - state.prev) % 2 ^ k := by
    rw [Nat.one_shiftLeft, Nat.and_two_pow_sub_one_eq_mod]
  rw [encodeElement, if_pos hnew]
  simp only [hcount, Option.bind_eq_bind, Option.bind_some, hremainder, Int.toNat_natCast, h.resIdx]
  generalize curr - state.prev = delta
  have hpacks := packs_append k delta h.packs
  generalize hquotient : delta >>> k = quotient at *
  have hlength := h.packs.length
  have hmod : delta % 2 ^ k < 2 ^ k := Nat.mod_lt _ (Nat.two_pow_pos k)
  generalize delta % 2 ^ k = remainder at *
  obtain ⟨hlength₀, hbits₀⟩ := resize_spec state.compressed
    (n := (bits.length + (quotient + 1 + k) + 7) / 8) (by omega)
  obtain ⟨s₁, hor, hlength₁, hbits₁⟩ := orByte_spec
    (resize state.compressed ((bits.length + (quotient + 1 + k) + 7) / 8))
    (i := (bits.length + quotient) / 8) (by omega) (1 <<< ((bits.length + quotient) % 8))
  obtain ⟨s₂, hwrite, hlength₂, hbits₂⟩ := writeRemainder_spec hmod (k + 1) s₁ 0
    ((bits.length + quotient + 1) % 8) ((bits.length + quotient + 1) / 8) (by omega) (by omega) (by omega)
  have hstart : 8 * ((bits.length + quotient + 1) / 8) + (bits.length + quotient + 1) % 8 =
      bits.length + quotient + 1 := Nat.div_add_mod _ 8
  refine ⟨⟨s₂, bits.length + (quotient + 1 + k), curr, false⟩, ?_, rfl, rfl,
    hpacks s₂ (by omega) fun j => ?_, ?_⟩
  · simp only [DIV_CEIL, CHAR_SIZE]
    rw [Nat.add_sub_assoc (by decide), hor, Option.bind_some, hwrite]
    rfl
  · rw [hbits₂, hbits₁, single_bit, hbits₀, hstart, Nat.zero_add, Bool.or_assoc]
  · rw [List.length_append, length_codeWord, hquotient]

/-- The differences the encoder writes, one for every new value. -/
def deltas : Bool → Nat → List Nat → List Nat
  | _, _, [] => []
  | start, prev, curr :: sortedArr =>
    if start ∨ curr > prev then (curr - prev) :: deltas false curr sortedArr
    else deltas start prev sortedArr

def valuesFrom : Nat → List Nat → List Nat
  | _, [] => []
  | prev, delta :: ds => (prev + delta) :: valuesFrom (prev + delta) ds

/-- The differences add up to the values that were written, each once. -/
theorem valuesFrom_deltas {sortedArr : List Nat} (hsorted : sortedArr.Pairwise (· ≤ ·)) (start : Bool)
    (prev : Nat) (hprev : ∀ v ∈ sortedArr, prev ≤ v) :
    (∀ v, v ∈ valuesFrom prev (deltas start prev sortedArr) ↔
        v ∈ sortedArr ∧ (start = true ∨ prev < v)) ∧
      (valuesFrom prev (deltas start prev sortedArr)).Pairwise (· < ·) := by
  induction sortedArr generalizing start prev with
  | nil => exact ⟨fun v => by simp [deltas, valuesFrom], List.Pairwise.nil⟩
  | cons curr sortedArr ih =>
    obtain ⟨hfirst, hrest⟩ := List.pairwise_cons.mp hsorted
    rw [deltas]
    split <;> rename_i hnew
    · obtain ⟨hmem, hascending⟩ := ih hrest false curr hfirst
      have hsum : prev + (curr - prev) = curr := Nat.add_sub_of_le (hprev curr List.mem_cons_self)
      rw [valuesFrom, hsum]
      refine ⟨fun v => ?_, List.pairwise_cons.mpr ⟨fun v hv => ?_, hascending⟩⟩
      · rw [List.mem_cons, hmem, List.mem_cons]
        constructor
        · rintro (rfl | ⟨hv, h | hlt⟩)
          · exact ⟨Or.inl rfl, hnew⟩
          · cases h
          · exact ⟨Or.inr hv, hnew.imp_right fun h => h.trans hlt⟩
        · rintro ⟨rfl | hv, -⟩
          · exact Or.inl rfl
          · exact (hfirst v hv).eq_or_lt.imp Eq.symm fun hlt => ⟨hv, Or.inr hlt⟩
      · exact ((hmem v).mp hv).2.resolve_left nofun
    · obtain ⟨hmem, hascending⟩ := ih hrest start prev fun v hv => hprev v (List.mem_cons_of_mem _ hv)
      refine ⟨fun v => ?_, hascending⟩
      rw [hmem, List.mem_cons]
      constructor
      · exact fun h => ⟨Or.inr h.1, h.2⟩
      · rintro ⟨rfl | hv, hv'⟩
        · exact absurd hv' hnew
        · exact ⟨hv, hv'⟩

theorem encode_spec {div : Int} (hdiv : 0 ≤ div ∧ div < 64) (sortedArr : List Nat) {state : Encoder}
    {bits : List Bool} (h : Encoded state bits) :
    ∃ state', sortedArr.foldlM (encodeElement div) state = some state' ∧ Encoded state'
      (bits ++ (deltas state.start state.prev sortedArr).flatMap (codeWord div.toNat)) := by
  induction sortedArr generalizing state bits with
  | nil => exact ⟨state, rfl, by simpa [deltas] using h⟩
  | cons curr sortedArr ih =>
    rw [List.foldlM_cons, deltas]
    split <;> rename_i hnew
    · obtain ⟨state₁, hstep, hstart, hprev, h₁⟩ := encodeElement_spec hdiv h hnew
      obtain ⟨state₂, hrest, h₂⟩ := ih h₁
      rw [hstart, hprev, List.append_assoc] at h₂
      refine ⟨state₂, ?_, h₂⟩
      rw [hstep]
      exact hrest
    · have hstep : encodeElement div state curr = some state := if_neg hnew
      rw [hstep]
      exact ih h

end Encoder

end Golomb
end PrivateSetIntersection
