import PrivateSetIntersection.Datastructure.GolombRoundTrip

/-! The bytes `golomb_compress` writes, against the list of bits they stand for: the code
words of the differences between the distinct values. -/
namespace PrivateSetIntersection
open Library BitString

namespace Golomb

/-- The first value, and what every further distinct value adds to the one before it. -/
def differences (sortedArr : List Nat) : List Nat :=
  let distinct := sortedArr.dedup
  List.zipWith (fun v prev => v - prev) distinct (0 :: distinct)

def bitStream (div : Nat) (sortedArr : List Nat) : List Bool :=
  (differences sortedArr).flatMap (codeWord div)

section Differences
variable {sortedArr sortedArr' : List Nat}

/-- Two ascending lists of distinct values with the same values are the same. -/
private theorem ascending_ext (h : sortedArr.Pairwise (· < ·)) (h' : sortedArr'.Pairwise (· < ·))
    (hmem : ∀ v, v ∈ sortedArr ↔ v ∈ sortedArr') : sortedArr = sortedArr' := by
  have hnodup {values : List Nat} (hvalues : values.Pairwise (· < ·)) : values.Nodup :=
    hvalues.imp fun hlt => hlt.ne
  have hperm : sortedArr.Perm sortedArr' :=
    (List.perm_ext_iff_of_nodup (hnodup h) (hnodup h')).mpr hmem
  exact hperm.eq_of_pairwise (fun a b _ _ hab hba => absurd hba hab.asymm) h h'

theorem dedup_ascending (hsorted : sortedArr.Pairwise (· ≤ ·)) :
    sortedArr.dedup.Pairwise (· < ·) := by
  have hle := hsorted.sublist (List.dedup_sublist sortedArr)
  exact (hle.and (List.nodup_dedup sortedArr)).imp fun h => lt_of_le_of_ne h.1 h.2

theorem differences_congr (hsorted : sortedArr.Pairwise (· ≤ ·)) (hsorted' : sortedArr'.Pairwise (· ≤ ·))
    (hmem : ∀ v, v ∈ sortedArr' ↔ v ∈ sortedArr) : differences sortedArr' = differences sortedArr := by
  have hdistinct : sortedArr'.dedup = sortedArr.dedup :=
    ascending_ext (dedup_ascending hsorted') (dedup_ascending hsorted) fun v => by
      rw [List.mem_dedup, List.mem_dedup, hmem]
  rw [differences, differences, hdistinct]

/-- The differences of sums are what was added. -/
private theorem zipWith_valuesFrom (prev : Nat) (ds : List Nat) :
    List.zipWith (fun v prev => v - prev) (valuesFrom prev ds) (prev :: valuesFrom prev ds) = ds := by
  induction ds generalizing prev with
  | nil => rfl
  | cons delta ds ih => rw [valuesFrom, List.zipWith_cons_cons, ih, Nat.add_sub_cancel_left]

/-- The encoder, which skips repeats as it goes, writes the differences. -/
theorem deltas_eq_differences (hsorted : sortedArr.Pairwise (· ≤ ·)) :
    deltas true 0 sortedArr = differences sortedArr := by
  obtain ⟨hmem, hascending⟩ := valuesFrom_deltas hsorted true 0 fun v _ => Nat.zero_le v
  have hvalues : valuesFrom 0 (deltas true 0 sortedArr) = sortedArr.dedup :=
    ascending_ext hascending (dedup_ascending hsorted) fun v => by
      rw [hmem, List.mem_dedup]
      simp
  rw [differences, ← hvalues, zipWith_valuesFrom]

end Differences

section Stream
variable {D : Type} [DoubleArithmetic D] {sortedArr : List Nat} {div : Int}

/-- With a given divisor the encoder packs the bit stream. -/
theorem exists_packs_bitStream (hne : sortedArr ≠ []) (hsorted : sortedArr.Pairwise (· ≤ ·))
    (hdiv : 0 ≤ div ∧ div ≤ 62) :
    ∃ compressed, golombCompress D sortedArr div = some ⟨div, compressed⟩ ∧
      Packs compressed (bitStream div.toNat sortedArr) := by
  obtain ⟨⟨chosen, compressed⟩, hcompress, hchosen⟩ :
      ∃ compressed, golombCompress D sortedArr div = some compressed ∧
        compressed.div = if sortedArr = [] then 0 else div :=
    exists_golombCompress (if_pos hdiv.1) ⟨hdiv.1, by omega⟩
  rw [if_neg hne] at hchosen
  dsimp only at hchosen
  subst hchosen
  have hpacks := golombCompress_packs hcompress ⟨hdiv.1, by dsimp only; omega⟩
  rw [deltas_eq_differences hsorted] at hpacks
  exact ⟨compressed, hcompress, hpacks⟩

/-- The compressed string is the bit stream and fewer than eight zeros, in no more bytes
than that takes, and the same for every list with the same values. -/
theorem compressed_bit_stream (hne : sortedArr ≠ []) (hsorted : sortedArr.Pairwise (· ≤ ·))
    (hdiv : 0 ≤ div ∧ div ≤ 62) :
    ∃ compressed, golombCompress D sortedArr div = some ⟨div, compressed⟩ ∧
      (∃ padding < 8, bits compressed =
        bitStream div.toNat sortedArr ++ List.replicate padding false) ∧
      compressed.length = DIV_CEIL (bitStream div.toNat sortedArr).length CHAR_SIZE ∧
      ∀ sortedArr', sortedArr'.Pairwise (· ≤ ·) → (∀ v, v ∈ sortedArr' ↔ v ∈ sortedArr) →
        golombCompress D sortedArr' div = some ⟨div, compressed⟩ := by
  obtain ⟨compressed, hcompress, hpacks⟩ :
      ∃ compressed, golombCompress D sortedArr div = some ⟨div, compressed⟩ ∧
        Packs compressed (bitStream div.toNat sortedArr) := exists_packs_bitStream hne hsorted hdiv
  refine ⟨compressed, hcompress, hpacks.bits_eq, hpacks.length, fun sortedArr' hsorted' hmem => ?_⟩
  have hne' : sortedArr' ≠ [] := by
    rintro rfl
    exact hne (List.eq_nil_iff_forall_not_mem.mpr fun v hv => absurd ((hmem v).mpr hv) List.not_mem_nil)
  obtain ⟨compressed', hcompress', hpacks'⟩ :
      ∃ compressed, golombCompress D sortedArr' div = some ⟨div, compressed⟩ ∧
        Packs compressed (bitStream div.toNat sortedArr') := exists_packs_bitStream hne' hsorted' hdiv
  rw [bitStream, differences_congr hsorted hsorted' hmem] at hpacks'
  rw [hcompress', hpacks'.unique hpacks]

/-- A repeated value. -/
theorem compressed_bit_stream_repeated :
    ∃ compressed, golombCompress ℚ [3, 3, 15] 2 = some ⟨2, compressed⟩ ∧
      (∃ padding < 8, bits compressed = bitStream 2 [3, 3, 15] ++ List.replicate padding false) ∧
      compressed.length = DIV_CEIL (bitStream 2 [3, 3, 15]).length CHAR_SIZE ∧
      ∀ sortedArr', sortedArr'.Pairwise (· ≤ ·) → (∀ v, v ∈ sortedArr' ↔ v ∈ [3, 3, 15]) →
        golombCompress ℚ sortedArr' 2 = some ⟨2, compressed⟩ :=
  compressed_bit_stream (List.cons_ne_nil _ _) (by decide) (by decide)

example : bitStream 2 [7] = [false, true, true, true] ∧ golombCompress ℚ [7] 2 = some ⟨2, [0b00001110]⟩ := by
  decide

end Stream

end Golomb
end PrivateSetIntersection
