import PrivateSetIntersection.Library.Bytes

/-! The bits of a byte string, the low bit of every byte first. -/
namespace Library.BitString

/-- The bit at a position; past the end there are zeros. -/
def bitAt (s : Bytes) (i : Nat) : Bool := (s.getD (i / 8) 0).toNat.testBit (i % 8)

theorem bitAt_of_le {s : Bytes} {i : Nat} (h : 8 * s.length ≤ i) : bitAt s i = false := by
  rw [bitAt, List.getD_eq_default _ _ (by omega)]
  exact Nat.zero_testBit _

theorem bitAt_of_lt {s : Bytes} {i : Nat} (h : i / 8 < s.length) :
    bitAt s i = s[i / 8].toNat.testBit (i % 8) := by
  rw [bitAt, List.getD_eq_getElem _ _ h]

/-- A byte's bits are those at its eight positions. -/
theorem testBit_getElem {s : Bytes} {k j : Nat} (hk : k < s.length) (hj : j < 8) :
    s[k].toNat.testBit j = bitAt s (8 * k + j) := by
  have hdiv : (8 * k + j) / 8 = k := by omega
  have hmod : (8 * k + j) % 8 = j := by omega
  rw [bitAt, hdiv, hmod, List.getD_eq_getElem _ _ hk]

theorem bitAt_append_zeros (s : Bytes) (n i : Nat) : bitAt (s ++ List.replicate n 0) i = bitAt s i := by
  rw [bitAt, bitAt, List.getD_eq_getElem?_getD, List.getD_eq_getElem?_getD, List.getElem?_append]
  split <;> rename_i hi
  · rfl
  · rw [List.getElem?_eq_none (Nat.not_lt.mp hi), List.getElem?_replicate]
    split <;> rfl

@[simp] theorem bitAt_replicate_zero (n i : Nat) : bitAt (List.replicate n 0) i = false := by
  rw [← List.nil_append (List.replicate n 0), bitAt_append_zeros, bitAt_of_le (Nat.zero_le i)]

/-- Bits or-ed into a byte are added to the bits there, and to no others. -/
theorem bitAt_modify_or (s : Bytes) {k : Nat} (hk : k < s.length) (b : UInt8) (i : Nat) :
    bitAt (s.modify k (· ||| b)) i =
      (bitAt s i || (decide (i / 8 = k) && b.toNat.testBit (i % 8))) := by
  simp only [bitAt, List.getD_eq_getElem?_getD, List.getElem?_modify]
  by_cases hbyte : k = i / 8
  · subst hbyte
    rw [List.getElem?_eq_getElem hk]
    simp [Nat.testBit_or]
  · simp [hbyte, Ne.symm hbyte]

theorem testBit_ofNat (v j : Nat) : (UInt8.ofNat v).toNat.testBit (j % 8) = v.testBit (j % 8) := by
  rw [UInt8.toNat_ofNat', Nat.testBit_mod_two_pow]
  simp [Nat.mod_lt]

/-- A one shifted into place within its byte is the bit at its position alone. -/
theorem single_bit (i j : Nat) :
    (decide (j / 8 = i / 8) && (1 <<< (i % 8)).testBit (j % 8)) = decide (j = i) := by
  rw [Nat.one_shiftLeft, Nat.testBit_two_pow, ← Bool.decide_and, decide_eq_decide]
  omega

/-- Two byte strings of one length with the same bits are the same. -/
theorem ext_bitAt {s t : Bytes} (hlength : s.length = t.length) (h : ∀ i, bitAt s i = bitAt t i) :
    s = t := by
  apply List.ext_getElem hlength
  intro k hk hk'
  rw [← UInt8.toNat_inj]
  apply Nat.eq_of_testBit_eq
  intro j
  by_cases hj : j < 8
  · rw [testBit_getElem hk hj, testBit_getElem hk' hj, h]
  · have hpow : 2 ^ 8 ≤ 2 ^ j := Nat.pow_le_pow_right (by decide) (Nat.not_lt.mp hj)
    rw [Nat.testBit_lt_two_pow (s[k].toNat_lt.trans_le hpow),
      Nat.testBit_lt_two_pow (t[k].toNat_lt.trans_le hpow)]

/-- A byte shifted down is zero if its bits from there on are. -/
theorem shiftRight_eq_zero_iff {s : Bytes} {k offset : Nat} (hk : k < s.length) :
    s[k].toNat >>> offset = 0 ↔
      ∀ i, 8 * k + offset ≤ i → i < 8 * (k + 1) → bitAt s i = false := by
  constructor
  · intro hzero i hlo hhi
    obtain ⟨j, rfl⟩ := Nat.exists_eq_add_of_le hlo
    rw [Nat.add_assoc, ← testBit_getElem hk (by omega), ← Nat.testBit_shiftRight, hzero,
      Nat.zero_testBit]
  · intro h
    apply Nat.eq_of_testBit_eq
    intro j
    rw [Nat.testBit_shiftRight, Nat.zero_testBit]
    by_cases hj : offset + j < 8
    · rw [testBit_getElem hk hj]
      exact h _ (by omega) (by omega)
    · have hpow : 2 ^ 8 ≤ 2 ^ (offset + j) := Nat.pow_le_pow_right (by decide) (Nat.not_lt.mp hj)
      exact Nat.testBit_lt_two_pow (s[k].toNat_lt.trans_le hpow)

def bits (s : Bytes) : List Bool := (List.range (8 * s.length)).map (bitAt s)

@[simp] theorem length_bits (s : Bytes) : (bits s).length = 8 * s.length := by
  rw [bits, List.length_map, List.length_range]

theorem bits_getD (s : Bytes) (i : Nat) : (bits s).getD i false = bitAt s i := by
  by_cases hi : i < 8 * s.length
  · rw [List.getD_eq_getElem _ _ (by simpa using hi)]
    simp only [bits, List.getElem_map, List.getElem_range]
  · rw [List.getD_eq_default _ _ (by simpa using hi), bitAt_of_le (Nat.not_lt.mp hi)]

theorem zeros_or_one (bits : List Bool) :
    bits = List.replicate bits.length false ∨ ∃ q r, bits = List.replicate q false ++ true :: r := by
  induction bits with
  | nil => exact Or.inl rfl
  | cons bit bits ih =>
    cases bit with
    | true => exact Or.inr ⟨0, bits, rfl⟩
    | false =>
      rcases ih with hzeros | ⟨q, r, hone⟩
      · exact Or.inl (congrArg (List.cons false) hzeros)
      · exact Or.inr ⟨q + 1, r, congrArg (List.cons false) hone⟩

theorem exists_testBit (bits : List Bool) :
    ∃ n < 2 ^ bits.length, bits = (List.range bits.length).map n.testBit := by
  refine ⟨Nat.ofBits bits.get, Nat.ofBits_lt_two_pow _, List.ext_getElem (by simp) fun i hi _ => ?_⟩
  rw [List.getElem_map, List.getElem_range, Nat.testBit_ofBits_lt _ _ hi]
  rfl

/-- A byte string that holds a list of bits, filled up with zeros to whole bytes. -/
structure Packs (s : Bytes) (bits : List Bool) : Prop where
  length : s.length = (bits.length + 7) / 8
  bitAt : ∀ i, bitAt s i = bits.getD i false

theorem Packs.nil : Packs [] [] where
  length := rfl
  bitAt i := bitAt_of_le (Nat.zero_le i)

theorem Packs.unique {s t : Bytes} {bits : List Bool} (h : Packs s bits) (h' : Packs t bits) : s = t :=
  ext_bitAt (h.length.trans h'.length.symm) fun i => (h.bitAt i).trans (h'.bitAt i).symm

/-- A packing is read as its list and fewer than eight zeros. -/
theorem Packs.bits_eq {s : Bytes} {bits : List Bool} (h : Packs s bits) :
    ∃ padding < 8, BitString.bits s = bits ++ List.replicate padding false := by
  have hlength := h.length
  refine ⟨8 * s.length - bits.length, by omega, List.ext_getElem ?_ fun i hi hi' => ?_⟩
  · rw [length_bits, List.length_append, List.length_replicate]
    omega
  · rw [← List.getD_eq_getElem _ false hi, bits_getD, h.bitAt, ← List.getD_eq_getElem _ false hi']
    by_cases hlt : i < bits.length
    · rw [List.getD_append _ _ _ _ hlt]
    · rw [List.getD_append_right _ _ _ _ (not_lt.mp hlt), List.getD_eq_default _ _ (not_lt.mp hlt),
        List.getD_eq_getElem?_getD, List.getElem?_replicate]
      split <;> rfl

end Library.BitString
