import PrivateSetIntersection.Library.Bytes

/-! Base-128 numbers, the low group first: every byte carries seven bits, and all but
the last have the high bit set. -/
namespace Library

/-- The number the low seven bits of the bytes spell. -/
def base128 : Bytes → Nat
  | [] => 0
  | byte :: bytes => byte.toNat % 128 + 128 * base128 bytes

theorem base128_lt (bytes : Bytes) : base128 bytes < 128 ^ bytes.length := by
  induction bytes with
  | nil => simp [base128]
  | cons byte bytes ih =>
    rw [base128, List.length_cons, Nat.pow_succ]
    omega

/-- One more byte is one more group above the ones there. -/
theorem base128_concat (bytes : Bytes) (byte : UInt8) :
    base128 (bytes ++ [byte]) = base128 bytes + 128 ^ bytes.length * (byte.toNat % 128) := by
  induction bytes with
  | nil => simp [base128]
  | cons b bytes ih =>
    rw [List.cons_append, base128, base128, ih, List.length_cons, Nat.pow_succ]
    ring

section Bits

theorem low_seven_bits (byte : UInt8) : (byte &&& 0x7F).toNat = byte.toNat % 128 := by
  rw [UInt8.toNat_and]
  exact Nat.and_two_pow_sub_one_eq_mod _ 7

private theorem byte_masks : ∀ n < 256, (n &&& 128 = 0 ↔ n < 128) ∧ (n &&& 240 = 0 ↔ n < 16) := by
  decide +kernel

theorem high_bit_clear (byte : UInt8) : byte &&& 0x80 = 0 ↔ byte < 0x80 := by
  rw [← UInt8.toNat_inj, UInt8.toNat_and, UInt8.lt_iff_toNat_lt]
  exact (byte_masks _ byte.toNat_lt).1

theorem high_nibble_clear (byte : UInt8) : byte &&& 0xF0 = 0 ↔ byte < 0x10 := by
  rw [← UInt8.toNat_inj, UInt8.toNat_and, UInt8.lt_iff_toNat_lt]
  exact (byte_masks _ byte.toNat_lt).2

end Bits

/-- A group shifted above a number is added to it. -/
theorem or_shifted_group (bytes : Bytes) (group : Nat) :
    base128 bytes ||| group <<< (7 * bytes.length) = base128 bytes + 128 ^ bytes.length * group := by
  have hlt := base128_lt bytes
  have hpow : 128 ^ bytes.length = 2 ^ (7 * bytes.length) := by
    rw [Nat.pow_mul]
  rw [hpow] at hlt ⊢
  rw [Nat.or_comm, ← Nat.shiftLeft_add_eq_or_of_lt hlt, Nat.shiftLeft_eq]
  ring

end Library
