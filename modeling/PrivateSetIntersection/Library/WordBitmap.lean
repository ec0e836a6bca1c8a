import Mathlib

/-! A set of indices kept as the bits of a list of words, `width` of them in each. -/
namespace Library.WordBitmap

def bitAt (width : Nat) (words : List Nat) (i : Nat) : Bool :=
  (words.getD (i / width) 0).testBit (i % width)

def orBit (width : Nat) (words : List Nat) (i : Nat) : List Nat :=
  words.modify (i / width) (· ||| 1 <<< (i % width))

def population (width word : Nat) : Nat := (List.range width).countP word.testBit

variable {width : Nat}

@[simp] theorem length_orBit (words : List Nat) (i : Nat) : (orBit width words i).length = words.length :=
  List.length_modify _ _ _

@[simp] theorem bitAt_replicate_zero (n i : Nat) : bitAt width (List.replicate n 0) i = false := by
  rw [bitAt, List.getD_eq_getElem?_getD, List.getElem?_replicate]
  split <;> simp

theorem bitAt_orBit (words : List Nat) {i : Nat} (hi : i / width < words.length)
    (j : Nat) : bitAt width (orBit width words i) j = (bitAt width words j || decide (i = j)) := by
  simp only [bitAt, orBit, List.getD_eq_getElem?_getD, List.getElem?_modify]
  by_cases hword : i / width = j / width
  · have hj : j / width < words.length := hword ▸ hi
    have hbit : i % width = j % width ↔ i = j := by
      constructor
      · intro h
        rw [← Nat.div_add_mod i width, ← Nat.div_add_mod j width, hword, h]
      · rintro rfl
        rfl
    rw [List.getElem?_eq_getElem hj]
    simp only [hword, if_true, Option.map_eq_map, Option.map_some, Option.getD_some, Nat.testBit_or,
      Nat.one_shiftLeft, Nat.testBit_two_pow, hbit]
  · have hne : i ≠ j := by
      rintro rfl
      exact hword rfl
    simp [hword, hne]

theorem sum_population (hwidth : 0 < width) (words : List Nat) :
    (words.map (population width)).sum =
      (List.range (width * words.length)).countP (bitAt width words) := by
  induction words with
  | nil => simp
  | cons word words ih =>
    have hhead : (List.range width).countP (bitAt width (word :: words)) = population width word := by
      refine List.countP_congr fun i hi => ?_
      rw [List.mem_range] at hi
      rw [bitAt, Nat.div_eq_of_lt hi, Nat.mod_eq_of_lt hi, List.getD_cons_zero]
    have htail : (List.range (width * words.length)).countP
        (fun i => bitAt width (word :: words) (width + i)) =
        (List.range (width * words.length)).countP (bitAt width words) := by
      refine List.countP_congr fun i _ => ?_
      rw [bitAt, Nat.add_div_left i hwidth, Nat.add_mod_left, List.getD_cons_succ, bitAt]
    rw [List.map_cons, List.sum_cons, ih, List.length_cons, Nat.mul_succ, Nat.add_comm (width * _),
      List.range_add, List.countP_append, List.countP_map, hhead, ← htail]
    rfl

/-- A set whose indices are below `n` is counted by the indices below `n`. -/
theorem countP_range_le {p : Nat → Bool} {n bound : Nat} (hn : n ≤ bound)
    (hp : ∀ i, p i = true → i < n) : (List.range bound).countP p = (List.range n).countP p := by
  obtain ⟨k, rfl⟩ := Nat.exists_eq_add_of_le hn
  rw [List.range_add, List.countP_append, List.countP_map, Nat.add_eq_left, List.countP_eq_zero]
  intro i _ hi
  exact absurd (hp _ hi) (Nat.not_lt.mpr (Nat.le_add_right n i))

end Library.WordBitmap
