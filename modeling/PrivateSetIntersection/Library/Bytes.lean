import Mathlib

/-! Byte strings, compared as unsigned bytes with a proper prefix first.
The order is the one of `List`, over the order of `UInt8`. -/
namespace Library

instance instLinearOrderUInt8 : LinearOrder UInt8 where
  le_refl := UInt8.le_refl
  le_trans _ _ _ := UInt8.le_trans
  le_antisymm _ _ := UInt8.le_antisymm
  le_total := UInt8.le_total
  lt_iff_le_not_ge a b := by
    rw [UInt8.not_le]
    exact ⟨fun h => ⟨UInt8.le_of_lt h, h⟩, fun h => h.2⟩
  toDecidableLE := inferInstance
  toDecidableLT := inferInstance
  toDecidableEq := inferInstance

abbrev Bytes := List UInt8

end Library
