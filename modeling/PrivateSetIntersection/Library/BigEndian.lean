import PrivateSetIntersection.Library.Bytes

/-! Numbers as byte strings, the high byte first. -/
namespace Library

namespace BigEndian

def value (bytes : Bytes) : Nat := Nat.ofDigits 256 (bytes.reverse.map UInt8.toNat)

theorem value_append (bytes rest : Bytes) : value (bytes ++ rest) = value bytes * 256 ^ rest.length + value rest := by
  rw [value, List.reverse_append, List.map_append, Nat.ofDigits_append, List.length_map, List.length_reverse,
    Nat.add_comm, Nat.mul_comm]
  rfl

theorem value_replicate_zero_append (n : Nat) (bytes : Bytes) : value (List.replicate n 0 ++ bytes) = value bytes := by
  have hzero : value (List.replicate n 0) = 0 := by
    rw [value, List.reverse_replicate, List.map_replicate]
    exact Nat.ofDigits_replicate_zero
  rw [value_append, hzero, Nat.zero_mul, Nat.zero_add]

end BigEndian

end Library
