import PrivateSetIntersection.Datastructure.GolombDecoder

/-! Compression and intersection together: of an ascending list the decoder returns what is
paired with the values that were compressed. -/
namespace PrivateSetIntersection
open Library BitString

namespace Golomb

theorem deltas_ne_nil (curr : Nat) (sortedArr : List Nat) : deltas true 0 (curr :: sortedArr) ≠ [] := by
  rw [deltas, if_pos (Or.inl rfl)]
  exact List.cons_ne_nil _ _

theorem length_le_flatMap_codeWord (div : Nat) (ds : List Nat) :
    ds.length ≤ (ds.flatMap (codeWord div)).length := by
  induction ds with
  | nil => exact Nat.le_refl 0
  | cons delta ds ih =>
    rw [List.flatMap_cons, List.length_append, length_codeWord, List.length_cons]
    generalize delta >>> div = quotient
    omega

def chosenDiv (D : Type) [DoubleArithmetic D] (sortedArr : List Nat) (divParam : Int) : Option Int :=
  if 0 ≤ divParam then some divParam else estimateDiv D sortedArr

section Compress
variable {D : Type} [DoubleArithmetic D] {sortedArr : List Nat} {divParam : Int}
  {compressed : GolombCompressed}

theorem golombCompress_eq_some_iff (hne : sortedArr ≠ []) :
    golombCompress D sortedArr divParam = some compressed ↔
      ∃ div state, chosenDiv D sortedArr divParam = some div ∧
        sortedArr.foldlM (encodeElement div) {} = some state ∧ ⟨div, state.compressed⟩ = compressed := by
  rw [golombCompress, if_neg hne, chosenDiv]
  by_cases hgiven : 0 ≤ divParam
  · simp [hgiven, Option.bind_eq_some_iff]
  · simp [hgiven, Option.bind_eq_some_iff]

/-- The compressed string is the packing of the code words of the values. -/
theorem golombCompress_packs (h : golombCompress D sortedArr divParam = some compressed)
    (hdiv : 0 ≤ compressed.div ∧ compressed.div < 64) :
    Packs compressed.compressed
      ((deltas true 0 sortedArr).flatMap (codeWord compressed.div.toNat)) := by
  by_cases hne : sortedArr = []
  · subst hne
    cases h
    exact Packs.nil
  · obtain ⟨div, state, -, hencode, rfl⟩ := (golombCompress_eq_some_iff hne).mp h
    have hfresh : Encoded {} [] := ⟨Packs.nil, rfl⟩
    obtain ⟨state', hencode', hencoded⟩ := encode_spec hdiv sortedArr hfresh
    rw [hencode] at hencode'
    cases hencode'
    exact hencoded.packs

theorem exists_golombCompress {div : Int} (hchosen : chosenDiv D sortedArr divParam = some div)
    (hdiv : 0 ≤ div ∧ div < 64) :
    ∃ compressed, golombCompress D sortedArr divParam = some compressed ∧
      compressed.div = if sortedArr = [] then 0 else div := by
  split <;> rename_i hne
  · subst hne
    exact ⟨_, rfl, rfl⟩
  · have hfresh : Encoded {} [] := ⟨Packs.nil, rfl⟩
    obtain ⟨state, hencode, -⟩ := encode_spec hdiv sortedArr hfresh
    exact ⟨_, (golombCompress_eq_some_iff hne).mpr ⟨div, state, hchosen, hencode, rfl⟩, rfl⟩

end Compress

/-- Of an ascending list, the decoder returns the indices whose values were compressed. -/
theorem golombIntersect_spec {ι : Type} {s : Bytes} {div : Nat} (hdiv : div < 64) {sortedArr : List Nat}
    (hsorted : sortedArr.Pairwise (· ≤ ·)) (hbound : ∀ v ∈ sortedArr, v < 2 ^ 63)
    (hpacks : Packs s ((deltas true 0 sortedArr).flatMap (codeWord div))) {arr : List (Int × ι)}
    (harr : arr.Pairwise (fun a b => a.1 ≤ b.1)) :
    golombIntersect s div arr =
      some ((arr.filter (fun pair => pair.1 ∈ sortedArr.map Nat.cast)).map Prod.snd) := by
  obtain ⟨hmem, hascending⟩ := valuesFrom_deltas hsorted true 0 fun v _ => Nat.zero_le v
  have hvalues (v : Nat) : v ∈ valuesFrom 0 (deltas true 0 sortedArr) ↔ v ∈ sortedArr := by
    rw [hmem]
    simp
  have hlength := hpacks.length
  have hwords := length_le_flatMap_codeWord div (deltas true 0 sortedArr)
  rw [golombIntersect]
  split <;> rename_i hempty
  · rw [hempty, List.length_nil] at hlength
    have hnone : sortedArr = [] := by
      cases sortedArr with
      | nil => rfl
      | cons curr sortedArr =>
        have hpos := List.length_pos_of_ne_nil (deltas_ne_nil curr sortedArr)
        omega
    simp [hnone]
  · have hloop := intersectFrom_spec (s := s) hdiv (8 * s.length + 1) 0 0 (deltas true 0 sortedArr) arr []
      (by omega) (by omega) (fun k => by rw [Nat.zero_add, hpacks.bitAt])
      (fun v hv => hbound v ((hvalues v).mp hv)) hascending harr
    simp only [List.mem_map, hvalues] at hloop ⊢
    exact hloop

/-- Decoding undoes encoding: with any divisor that is given, and whatever list is matched
against the values, no access leaves the string, no shift is by the width of the word, and
the pairs whose values were compressed are returned, each once and in order. -/
theorem intersect_compressed {ι D : Type} [DoubleArithmetic D] {sortedArr : List Nat}
    (hsorted : sortedArr.Pairwise (· ≤ ·)) (hbound : ∀ v ∈ sortedArr, v < 2 ^ 63) {div : Int}
    (hdiv : 0 ≤ div ∧ div ≤ 62) {arr : List (Int × ι)} (harr : arr.Pairwise (fun a b => a.1 ≤ b.1)) :
    ∃ compressed, golombCompress D sortedArr div = some compressed ∧
      golombIntersect compressed.compressed compressed.div arr =
        some ((arr.filter (fun pair => pair.1 ∈ sortedArr.map Nat.cast)).map Prod.snd) := by
  obtain ⟨compressed, hcompress, hchosen⟩ :
      ∃ compressed, golombCompress D sortedArr div = some compressed ∧
        compressed.div = if sortedArr = [] then 0 else div :=
    exists_golombCompress (if_pos hdiv.1) ⟨hdiv.1, by omega⟩
  refine ⟨compressed, hcompress, ?_⟩
  have hrange : 0 ≤ compressed.div ∧ compressed.div < 64 := by
    rw [hchosen]
    split <;> omega
  have hpacks := golombCompress_packs hcompress hrange
  obtain ⟨k, hk⟩ := Int.eq_ofNat_of_zero_le hrange.1
  rw [hk] at hpacks hrange ⊢
  exact golombIntersect_spec (by omega) hsorted hbound hpacks harr

/-- A repeated value, and pairs of which one is negative and two have one value. -/
theorem intersect_compressed_repeated :
    ∃ compressed, golombCompress ℚ [3, 3, 15] 2 = some compressed ∧
      golombIntersect compressed.compressed compressed.div [(-1, 0), (3, 1), (3, 2), (4, 3)] =
        some [1, 2] :=
  intersect_compressed (by decide) (by decide) (by decide) (by decide)

end Golomb
end PrivateSetIntersection
