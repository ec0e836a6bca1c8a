import PrivateSetIntersection.Library.Traversal
import PrivateSetIntersection.Datastructure.Gcs
import PrivateSetIntersection.Datastructure.GolombRoundTrip

/-! `GCS` across the wire: the set that arrives answers with the indices of the elements
whose hashes were put in. -/
namespace PrivateSetIntersection
open Library BitString

namespace GCS
variable (sha256 : Bytes → Nat)

theorem sortByHash_ascending (S : ComparisonSort) (hashes : List (Int × Nat)) :
    (S.sort (fun a b => decide (a.1 < b.1)) hashes).Pairwise (fun a b => a.1 ≤ b.1) :=
  S.sort_ascending (show ByKey Prod.fst _ from fun _ _ => decide_eq_true_iff) hashes

def hashOf (hashRange : Int) (element : Bytes) : Nat := sha256 element % hashRange.toNat

def sortedHashes (S : ComparisonSort) (hashRange : Int) (elements : List Bytes) : List Nat :=
  S.sort (fun a b => decide (a < b)) (elements.map (hashOf sha256 hashRange))

theorem hash_eq {hashRange : Int} (h : 0 < hashRange) (element : Bytes) :
    hash sha256 element hashRange = some (hashOf sha256 hashRange element) := if_pos h

theorem hashes_eq {hashRange : Int} (h : 0 < hashRange) (elements : List Bytes) :
    elements.mapM (fun element => hash sha256 element hashRange) =
      some (elements.map (hashOf sha256 hashRange)) :=
  Traversal.mapM_of_some fun element _ => hash_eq sha256 h element

theorem hashes_undefined {hashRange : Int} (h : ¬ 0 < hashRange) {elements : List Bytes}
    (hne : elements ≠ []) : elements.mapM (fun element => hash sha256 element hashRange) = none := by
  obtain ⟨element, elements, rfl⟩ := List.exists_cons_of_ne_nil hne
  rw [List.mapM_cons, hash, if_neg h]
  rfl

section Created
variable {sha256} {D : Type} [DoubleArithmetic D] {S : ComparisonSort} {fpr : D} {numClientInputs : Int}
  {elements : List Bytes} {gcs : GCS}

theorem create_eq_ok (h : create sha256 S fpr numClientInputs elements = .ok gcs) :
    DoubleArithmetic.toInt64 (DoubleArithmetic.div (DoubleArithmetic.ofInt
        (max numClientInputs elements.length)) fpr) = some gcs.hashRange ∧
      ∃ hashes, elements.mapM (fun element => hash sha256 element gcs.hashRange) = some hashes ∧
        Golomb.golombCompress D (S.sort (fun a b => decide (a < b)) hashes) = some ⟨gcs.div, gcs.golomb⟩ := by
  rw [create] at h
  split at h
  · cases h
  · obtain ⟨hashRange, hcast, h⟩ := StatusOr.bind_eq_ok.mp h
    obtain ⟨hashes, hhashes, h⟩ := StatusOr.bind_eq_ok.mp h
    obtain ⟨compressed, hcompressed, h⟩ := StatusOr.bind_eq_ok.mp h
    cases h
    rw [StatusOr.ofOption_eq_ok] at hcast hhashes hcompressed
    exact ⟨hcast, hashes, hhashes, hcompressed⟩

/-- What `Create` leaves: the packed code words of the elements' hashes. -/
theorem create_packs (h : create sha256 S fpr numClientInputs elements = .ok gcs)
    (hdiv : 0 ≤ gcs.div ∧ gcs.div < 64) (hrange : 0 < gcs.hashRange) :
    ∃ sortedArr : List Nat, sortedArr.Perm (elements.map (hashOf sha256 gcs.hashRange)) ∧
      sortedArr.Pairwise (· ≤ ·) ∧
      Packs gcs.golomb ((Golomb.deltas true 0 sortedArr).flatMap (Golomb.codeWord gcs.div.toNat)) := by
  obtain ⟨-, hashes, hhashes, hcompressed⟩ := create_eq_ok h
  rw [hashes_eq sha256 hrange, Option.some.injEq] at hhashes
  subst hhashes
  refine ⟨_, S.perm _ _, S.sort_ascending (show ByKey id _ from fun _ _ => decide_eq_true_iff) _, ?_⟩
  exact Golomb.golombCompress_packs hcompressed hdiv

/-- A rate that `Create` takes, with a range it can cast to and a divisor it can shift by. -/
structure Accepts (sha256 : Bytes → Nat) (S : ComparisonSort) (fpr : D) (numClientInputs : Int)
    (elements : List Bytes) (hashRange div : Int) : Prop where
  rate : ¬ (DoubleArithmetic.le fpr (DoubleArithmetic.ofInt 0) = true ∨
    DoubleArithmetic.le (DoubleArithmetic.ofInt 1) fpr = true)
  cast : DoubleArithmetic.toInt64 (DoubleArithmetic.div (DoubleArithmetic.ofInt
    (max numClientInputs elements.length)) fpr) = some hashRange
  range : 0 < hashRange ∧ hashRange < 2 ^ 63
  estimate : elements ≠ [] → Golomb.estimateDiv D (sortedHashes sha256 S hashRange elements) = some div
  div : 0 ≤ div ∧ div ≤ 62

/-- With them the set is built. -/
theorem Accepts.create {hashRange div : Int} (h : Accepts sha256 S fpr numClientInputs elements hashRange div) :
    ∃ gcs, create sha256 S fpr numClientInputs elements = .ok gcs ∧ gcs.hashRange = hashRange ∧
      gcs.div = if elements = [] then 0 else div := by
  have hempty : sortedHashes sha256 S hashRange elements = [] ↔ elements = [] := by
    rw [sortedHashes, ← List.length_eq_zero_iff, (S.perm _ _).length_eq, List.length_map, List.length_eq_zero_iff]
  obtain ⟨compressed, hcompress, hdiv⟩ : ∃ compressed,
      Golomb.golombCompress D (sortedHashes sha256 S hashRange elements) = some compressed ∧
        compressed.div = if elements = [] then 0 else div := by
    by_cases hne : elements = []
    · rw [if_pos hne, hempty.mpr hne]
      exact ⟨_, rfl, rfl⟩
    · have hchosen : Golomb.chosenDiv D (sortedHashes sha256 S hashRange elements) (-1) = some div :=
        h.estimate hne
      obtain ⟨compressed, hcompress, hused⟩ := Golomb.exists_golombCompress hchosen ⟨h.div.1, by have := h.div.2; omega⟩
      rw [if_neg (mt hempty.mp hne)] at hused
      exact ⟨compressed, hcompress, by rw [if_neg hne, hused]⟩
  refine ⟨⟨compressed.compressed, compressed.div, hashRange⟩, ?_, rfl, hdiv⟩
  rw [sortedHashes] at hcompress
  rw [GCS.create, if_neg h.rate]
  dsimp only
  rw [h.cast, StatusOr.ofOption_some, StatusOr.ok_bind, hashes_eq sha256 h.range.1, StatusOr.ofOption_some,
    StatusOr.ok_bind, hcompress]
  rfl

end Created

section RoundTrip
variable {D : Type} [DoubleArithmetic D] {S : ComparisonSort} (T : ComparisonSort) {fpr : D}
  {numClientInputs : Int} {elements : List Bytes} {gcs : GCS}

def hashedIndices (hashRange : Int) (elements : List Bytes) : List (Int × Nat) :=
  elements.zipIdx.map (fun p => ((hashOf sha256 hashRange p.1 : Int), p.2))

theorem hashedIndices_fst (hashRange : Int) (elements : List Bytes) :
    (hashedIndices sha256 hashRange elements).map Prod.fst =
      elements.map (fun element => (hashOf sha256 hashRange element : Int)) := by
  conv_rhs => rw [← List.zipIdx_map_fst 0 elements, List.map_map]
  rw [hashedIndices, List.map_map]
  rfl

theorem hashedIndices_snd (hashRange : Int) (elements : List Bytes) :
    (hashedIndices sha256 hashRange elements).map Prod.snd = List.range' 0 elements.length := by
  rw [hashedIndices, List.map_map, Function.comp_def, List.zipIdx_map_snd]

theorem mem_hashedIndices {hashRange : Int} {elements : List Bytes} {p : Int × Nat} :
    p ∈ hashedIndices sha256 hashRange elements ↔
      ∃ x, elements[p.2]? = some x ∧ (hashOf sha256 hashRange x : Int) = p.1 := by
  rw [hashedIndices, List.mem_map]
  constructor
  · rintro ⟨⟨x, i⟩, hx, rfl⟩
    exact ⟨x, List.mem_zipIdx_iff_getElem?.mp hx, rfl⟩
  · rintro ⟨x, hx, hp⟩
    exact ⟨(x, p.2), List.mem_zipIdx_iff_getElem?.mpr hx, Prod.ext hp rfl⟩

theorem intersect_eq (hrange : 0 < gcs.hashRange) (clientElements : List Bytes) :
    gcs.intersect sha256 T clientElements = Golomb.golombIntersect gcs.golomb gcs.div
      (T.sort (fun a b => decide (a.1 < b.1)) (hashedIndices sha256 gcs.hashRange clientElements)) := by
  have hhashes : clientElements.zipIdx.mapM (fun p => do
      let h ← hash sha256 p.1 gcs.hashRange
      return ((h : Int), p.2)) = some (hashedIndices sha256 gcs.hashRange clientElements) :=
    Traversal.mapM_of_some fun p _ => by
      rw [hash_eq sha256 hrange]
      rfl
  rw [intersect, hhashes]
  rfl

theorem intersect_undefined (hrange : ¬ 0 < gcs.hashRange) {clientElements : List Bytes}
    (hne : clientElements ≠ []) : gcs.intersect sha256 T clientElements = none := by
  obtain ⟨element, clientElements, rfl⟩ := List.exists_cons_of_ne_nil hne
  rw [intersect, List.zipIdx_cons, List.mapM_cons]
  dsimp only
  rw [hash, if_neg hrange]
  rfl

theorem intersect_spec (h : create sha256 S fpr numClientInputs elements = .ok gcs)
    (hdiv : 0 ≤ gcs.div ∧ gcs.div < 64) (hrange : 0 < gcs.hashRange ∧ gcs.hashRange < 2 ^ 63)
    (clientElements : List Bytes) :
    ∃ indices, gcs.intersect sha256 T clientElements = some indices ∧ indices.Nodup ∧
      ∀ i, i ∈ indices ↔ ∃ x, clientElements[i]? = some x ∧
        ∃ y ∈ elements, hashOf sha256 gcs.hashRange y = hashOf sha256 gcs.hashRange x := by
  obtain ⟨sortedArr, hperm, hsorted, hpacks⟩ := create_packs h hdiv hrange.1
  obtain ⟨k, hk⟩ := Int.eq_ofNat_of_zero_le hdiv.1
  obtain ⟨range, hn⟩ := Int.eq_ofNat_of_zero_le hrange.1.le
  have hbound : ∀ v ∈ sortedArr, v < 2 ^ 63 := by
    intro v hv
    obtain ⟨y, -, rfl⟩ := List.mem_map.mp (hperm.mem_iff.mp hv)
    rw [hn] at hrange
    have hlt : sha256 y % range < range := Nat.mod_lt _ (by omega)
    rw [hashOf, hn, Int.toNat_natCast]
    omega
  have hsort := T.perm (fun a b => decide (a.1 < b.1)) (hashedIndices sha256 gcs.hashRange clientElements)
  rw [hk, Int.toNat_natCast] at hpacks
  have hmatch := Golomb.golombIntersect_spec (show k < 64 by omega) hsorted hbound hpacks
    (sortByHash_ascending T (hashedIndices sha256 gcs.hashRange clientElements))
  rw [intersect_eq sha256 T hrange.1, hk]
  refine ⟨_, hmatch, ?_, fun i => ?_⟩
  · refine (List.filter_sublist.map Prod.snd).nodup ?_
    rw [(hsort.map Prod.snd).nodup_iff, hashedIndices_snd]
    exact List.nodup_range'
  · simp only [List.mem_map, List.mem_filter, hsort.mem_iff, hperm.mem_iff, decide_eq_true_eq,
      mem_hashedIndices]
    constructor
    · rintro ⟨⟨v, j⟩, ⟨⟨x, hx, rfl⟩, w, ⟨y, hy, rfl⟩, heq⟩, rfl⟩
      exact ⟨x, hx, y, hy, Nat.cast_inj.mp heq⟩
    · rintro ⟨x, hx, y, hy, heq⟩
      exact ⟨(_, i), ⟨⟨x, hx, rfl⟩, _, ⟨y, hy, rfl⟩, congrArg Nat.cast heq⟩, rfl⟩

/-- The divisor fits the field it is sent in. -/
theorem createFromProtobuf_toProtobuf (hdiv : 0 ≤ gcs.div ∧ gcs.div < 64) :
    createFromProtobuf gcs.toProtobuf = .ok gcs := by
  have hfield : gcs.div.bmod (2 ^ 32) = gcs.div := by
    apply Int.bmod_eq_of_le <;> omega
  rw [createFromProtobuf, if_neg (by simp [ServerSetup.isInitialized]), toProtobuf, hfield]
  rfl

/-- The set is built, and what crossed the wire returns, each once, the indices whose hashes
were put in: all those of the server's elements, and otherwise collisions only. -/
theorem round_trip {hashRange div : Int} (h : Accepts sha256 S fpr numClientInputs elements hashRange div)
    (clientElements : List Bytes) :
    ∃ gcs received indices, create sha256 S fpr numClientInputs elements = .ok gcs ∧
      gcs.hashRange = hashRange ∧ gcs.div = (if elements = [] then 0 else div) ∧
      createFromProtobuf gcs.toProtobuf = .ok received ∧
      received.intersect sha256 T clientElements = some indices ∧ indices.Nodup ∧
      (∀ i, i ∈ indices ↔ ∃ x, clientElements[i]? = some x ∧
        ∃ y ∈ elements, hash sha256 y hashRange = hash sha256 x hashRange) ∧
      ∀ i x, clientElements[i]? = some x → (x ∈ elements → i ∈ indices) ∧
        (i ∈ indices → x ∉ elements →
          ∃ y ∈ elements, y ≠ x ∧ hash sha256 y hashRange = hash sha256 x hashRange) := by
  obtain ⟨gcs, hcreate, hgcs, hdiv⟩ := h.create
  have hrange : 0 < gcs.hashRange ∧ gcs.hashRange < 2 ^ 63 := by
    rw [hgcs]
    exact h.range
  have hwidth : 0 ≤ gcs.div ∧ gcs.div < 64 := by
    have hbounds := h.div
    rw [hdiv]
    split <;> omega
  obtain ⟨indices, hintersect, hnodup, hmem⟩ := intersect_spec sha256 T hcreate hwidth hrange clientElements
  rw [hgcs] at hmem
  simp only [hash_eq sha256 h.range.1, Option.some.injEq]
  refine ⟨gcs, gcs, indices, hcreate, hgcs, hdiv, createFromProtobuf_toProtobuf hwidth, hintersect, hnodup, hmem,
    fun i x hx => ?_⟩
  constructor
  · exact fun hin => (hmem i).mpr ⟨x, hx, x, hin, rfl⟩
  · intro hi hout
    obtain ⟨x', hx', y, hy, heq⟩ := (hmem i).mp hi
    obtain rfl := Option.some.inj (hx.symm.trans hx')
    exact ⟨y, hy, fun hyx => hout (hyx ▸ hy), heq⟩

/-- A client that has one of two elements twice, and an element whose hash is not theirs. -/
theorem round_trip_repeated :
    ∃ received indices, create (fun x => (x.headD 0).toNat) .insertion (1 / 8 : ℚ) 2 [[15], [3]] =
        .ok ⟨[71, 0], 2, 16⟩ ∧
      createFromProtobuf (GCS.mk [71, 0] 2 16).toProtobuf = .ok received ∧
      received.intersect (fun x => (x.headD 0).toNat) .insertion [[15], [4], [15]] = some indices ∧
      indices.Nodup ∧ ∀ i, i ∈ indices ↔ i = 0 ∨ i = 2 := by
  have haccepts : Accepts (fun x => (x.headD 0).toNat) .insertion (1 / 8 : ℚ) 2 [[15], [3]] 16 2 :=
    ⟨by decide +kernel, by decide +kernel, by decide, fun _ => by decide +kernel, by decide⟩
  obtain ⟨gcs, received, indices, hcreate, -, -, hreceived, hintersect, hnodup, hmem, -⟩ :=
    round_trip (fun x => (x.headD 0).toNat) .insertion haccepts [[15], [4], [15]]
  have hbuilt : create (fun x => (x.headD 0).toNat) .insertion (1 / 8 : ℚ) 2 [[15], [3]] = .ok ⟨[71, 0], 2, 16⟩ := by
    decide +kernel
  obtain rfl := StatusOr.ok.inj (hbuilt.symm.trans hcreate)
  refine ⟨received, indices, hbuilt, hreceived, hintersect, hnodup, fun i => (hmem i).trans ?_⟩
  constructor
  · rintro ⟨x, hx, hcollides⟩
    match i, hx with
    | 0, _ => exact .inl rfl
    | 1, hx =>
      cases hx
      exact absurd hcollides (by decide)
    | 2, _ => exact .inr rfl
  · rintro (rfl | rfl)
    · exact ⟨[15], rfl, by decide⟩
    · exact ⟨[15], rfl, by decide⟩

end RoundTrip

end GCS
end PrivateSetIntersection
