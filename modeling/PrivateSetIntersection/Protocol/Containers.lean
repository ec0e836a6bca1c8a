import PrivateSetIntersection.Datastructure.BloomMembership
import PrivateSetIntersection.Datastructure.GcsRoundTrip
import PrivateSetIntersection.Protocol.Answers

/-! The client's answer from each of the three containers. A Golomb compressed set and a
Bloom filter are asked about every element; a raw list gives each of its elements away once. -/
namespace PrivateSetIntersection
open Library

section Occurrences
variable {elements : List Bytes} {x : Bytes}

theorem count_take_lt {i : Nat} (h : elements[i]? = some x) : (elements.take i).count x < elements.count x := by
  obtain ⟨hi, rfl⟩ := List.getElem?_eq_some_iff.mp h
  have hsplit : elements = elements.take i ++ elements[i] :: elements.drop (i + 1) := by
    rw [← List.drop_eq_getElem_cons hi, List.take_append_drop]
  have hcount := congrArg (List.count elements[i]) hsplit
  rw [List.count_append, List.count_cons_self] at hcount
  omega

/-- Before the last occurrence there is one fewer. -/
theorem exists_last_occurrence (h : x ∈ elements) :
    ∃ i : Nat, elements[i]? = some x ∧ (elements.take i).count x + 1 = elements.count x := by
  induction elements using List.reverseRecOn with
  | nil => exact absurd h List.not_mem_nil
  | append_singleton elements y ih =>
    by_cases hyx : y = x
    · refine ⟨elements.length, ?_, ?_⟩
      · rw [List.getElem?_concat_length, hyx]
      · rw [List.take_left, List.count_append, hyx, List.count_singleton_self]
    · have hmem : x ∈ elements := by
        rcases List.mem_append.mp h with hmem | hmem
        · exact hmem
        · exact absurd (List.mem_singleton.mp hmem).symm hyx
      obtain ⟨i, hget, hcount⟩ := ih hmem
      have hi := (List.getElem?_eq_some_iff.mp hget).1
      refine ⟨i, by rw [List.getElem?_append_left hi, hget], ?_⟩
      rw [List.take_append_of_le_length hi.le, List.count_append, hcount,
        List.count_singleton, if_neg (by simpa using hyx), Nat.add_zero]

/-- Every occurrence of the server's elements is among the first ones, as many as the
server has, exactly if no such element occurs more often on the client's side. -/
theorem first_occurrences_iff {plains elements : List Bytes} :
    (∀ (i : Nat) (x : Bytes), plains[i]? = some x →
        ((plains.take i).count x < elements.count x ↔ x ∈ elements)) ↔
      ∀ x ∈ elements, plains.count x ≤ elements.count x := by
  constructor
  · intro h x hx
    by_cases hmem : x ∈ plains
    · obtain ⟨i, hget, hcount⟩ := exists_last_occurrence hmem
      have hlt := (h i x hget).mpr hx
      omega
    · rw [List.count_eq_zero.mpr hmem]
      exact Nat.zero_le _
  · intro h i x hget
    refine ⟨fun hlt => List.count_pos_iff.mp (Nat.zero_lt_of_lt hlt), fun hx => ?_⟩
    exact (count_take_lt hget).trans_le (h x hx)

end Occurrences

section Answers
variable {D : Type} [DoubleArithmetic D] (sha256 : Bytes → Nat) (S T : ComparisonSort) (build : Build)
  (client : PsiClient) {fpr fpr' : D} {numClientInputs numClientInputs' : Int}
  {elements plains : List Bytes} {response : Response} {ptr : Option (List Nat)} {permutation : List Nat}
  {raw : Raw} {gcs : GCS} {filter : BloomFilter}

theorem PsiClient.processResponse_raw_spec
    (hplains : response.encryptedElements.mapM client.ecCipher.decrypt = .ok plains)
    (hraw : Raw.create S elements ptr = .ok (raw, permutation)) :
    ∃ indices, client.processResponse sha256 T build raw.toProtobuf response = .ok indices ∧ indices.Nodup ∧
      ∀ i, i ∈ indices ↔ ∃ x, plains[i]? = some x ∧ (plains.take i).count x < elements.count x := by
  rw [Raw.create_eq] at hraw
  obtain rfl : sortedRaw S elements = raw := congrArg Prod.fst (StatusOr.ok.inj hraw)
  have hascending := sortedRaw_ascending S elements
  refine ⟨(sortedRaw S elements).intersect T plains,
    PsiClient.processResponse_raw sha256 T build client hplains _, ?_, fun i => ?_⟩
  · exact Raw.nodup_intersect T plains hascending
  · rw [Raw.mem_intersect_iff T plains hascending]
    simp only [(sortedRaw_perm S elements).count_eq]

theorem PsiClient.processResponse_gcs_spec
    (hplains : response.encryptedElements.mapM client.ecCipher.decrypt = .ok plains)
    (hgcs : GCS.create sha256 S fpr numClientInputs elements = .ok gcs)
    (hdiv : 0 ≤ gcs.div ∧ gcs.div < 64) (hrange : 0 < gcs.hashRange ∧ gcs.hashRange < 2 ^ 63)
    (hexact : ∀ x ∈ plains, ∀ y ∈ elements,
      GCS.hash sha256 y gcs.hashRange = GCS.hash sha256 x gcs.hashRange → y = x) :
    ∃ indices, client.processResponse sha256 T build gcs.toProtobuf response = .ok indices ∧ indices.Nodup ∧
      ∀ i, i ∈ indices ↔ ∃ x, plains[i]? = some x ∧ x ∈ elements := by
  obtain ⟨indices, hintersect, hnodup, hmem⟩ := GCS.intersect_spec sha256 T hgcs hdiv hrange plains
  refine ⟨indices, ?_, hnodup, fun i => ?_⟩
  · rw [GCS.toProtobuf, PsiClient.processResponse_gcs sha256 T build client hplains, ← GCS.toProtobuf,
      GCS.createFromProtobuf_toProtobuf hdiv, StatusOr.ok_bind, hintersect, StatusOr.ofOption_some]
  · rw [hmem]
    refine exists_congr fun x => and_congr_right fun hx => ?_
    simp only [GCS.hash_eq sha256 hrange.1, Option.some.injEq] at hexact
    constructor
    · rintro ⟨y, hy, heq⟩
      exact hexact x (List.mem_of_getElem? hx) y hy heq ▸ hy
    · exact fun hx => ⟨x, hx, rfl⟩

theorem PsiClient.processResponse_bloomFilter_spec
    (hplains : response.encryptedElements.mapM client.ecCipher.decrypt = .ok plains)
    (hfilter : BloomFilter.create sha256 fpr numClientInputs elements = .ok filter)
    (husable : filter.Usable) (hexact : ∀ x ∈ plains, filter.check sha256 x = some true → x ∈ elements) :
    ∃ indices, client.processResponse sha256 T build filter.toProtobuf response = .ok indices ∧ indices.Nodup ∧
      ∀ i, i ∈ indices ↔ ∃ x, plains[i]? = some x ∧ x ∈ elements := by
  have hcheck : ∀ x ∈ plains, filter.check sha256 x = some (decide (x ∈ elements)) := by
    intro x hx
    obtain ⟨answer, hanswer, -⟩ := BloomFilter.check_eq (husable.addable sha256 x)
    by_cases hmem : x ∈ elements
    · rw [BloomFilter.check_of_mem hfilter husable hmem, decide_eq_true hmem]
    · cases answer with
      | true => exact absurd (hexact x hx hanswer) hmem
      | false => rw [hanswer, decide_eq_false hmem]
  have hintersect := BloomFilter.intersect_eq hcheck
  refine ⟨(plains.zipIdx.filter (fun p => decide (p.1 ∈ elements))).map Prod.snd, ?_, ?_, fun i => ?_⟩
  · rw [BloomFilter.toProtobuf, PsiClient.processResponse_bloomFilter sha256 T build client hplains]
    exact congrArg StatusOr.ofOption hintersect
  · refine (List.filter_sublist.map Prod.snd).nodup ?_
    rw [List.zipIdx_map_snd]
    exact List.nodup_range'
  · simp only [List.mem_map, List.mem_filter, decide_eq_true_eq]
    constructor
    · rintro ⟨⟨x, j⟩, ⟨hx, hmem⟩, rfl⟩
      exact ⟨x, List.mem_zipIdx_iff_getElem?.mp hx, hmem⟩
    · rintro ⟨x, hx, hmem⟩
      exact ⟨(x, i), ⟨List.mem_zipIdx_iff_getElem?.mpr hx, hmem⟩, rfl⟩

/-- Of two duplicate-free lists, one inside the other, the shorter is as long only if it is the same. -/
private theorem length_eq_iff {xs ys : List Nat} (hxs : xs.Nodup) (hys : ys.Nodup) (h : ∀ i ∈ xs, i ∈ ys) :
    xs.length = ys.length ↔ ∀ i, i ∈ xs ↔ i ∈ ys := by
  constructor
  · intro hlength i
    exact ((hxs.subperm h).perm_of_length_le hlength.ge).mem_iff
  · exact fun hmem => ((List.perm_ext_iff_of_nodup hxs hys).mpr hmem).length_eq

/-- A Golomb compressed set and a Bloom filter without false positives answer with every
index whose element the server holds; a raw list with as many of these, for each element,
as the server holds of it. The answers agree exactly if the client never has more. -/
theorem container_answers (hreveal : client.revealIntersection = true)
    (hplains : response.encryptedElements.mapM client.ecCipher.decrypt = .ok plains)
    (hraw : Raw.create S elements ptr = .ok (raw, permutation))
    (hgcs : GCS.create sha256 S fpr numClientInputs elements = .ok gcs)
    (hdiv : 0 ≤ gcs.div ∧ gcs.div ≤ 62) (hrange : 0 < gcs.hashRange ∧ gcs.hashRange < 2 ^ 63)
    (hgcsExact : ∀ x ∈ plains, ∀ y ∈ elements,
      GCS.hash sha256 y gcs.hashRange = GCS.hash sha256 x gcs.hashRange → y = x)
    (hfilter : BloomFilter.create sha256 fpr' numClientInputs' elements = .ok filter)
    (husable : filter.Usable)
    (hfilterExact : ∀ x ∈ plains, filter.check sha256 x = some true → x ∈ elements) :
    ∃ fromRaw fromGcs fromFilter,
      client.getIntersection sha256 T build raw.toProtobuf response = .ok fromRaw ∧
      client.getIntersection sha256 T build gcs.toProtobuf response = .ok fromGcs ∧
      client.getIntersection sha256 T build filter.toProtobuf response = .ok fromFilter ∧
      client.getIntersectionSize sha256 T build raw.toProtobuf response = .ok fromRaw.length ∧
      client.getIntersectionSize sha256 T build gcs.toProtobuf response = .ok fromGcs.length ∧
      client.getIntersectionSize sha256 T build filter.toProtobuf response = .ok fromFilter.length ∧
      (fromRaw.Nodup ∧ fromGcs.Nodup ∧ fromFilter.Nodup) ∧
      (∀ i, i ∈ fromGcs ↔ ∃ x, plains[i]? = some x ∧ x ∈ elements) ∧
      (∀ i, i ∈ fromFilter ↔ ∃ x, plains[i]? = some x ∧ x ∈ elements) ∧
      (∀ i, i ∈ fromRaw ↔ ∃ x, plains[i]? = some x ∧ (plains.take i).count x < elements.count x) ∧
      fromGcs.length = fromFilter.length ∧
      ((∀ i, i ∈ fromRaw ↔ i ∈ fromGcs) ↔ ∀ x ∈ elements, plains.count x ≤ elements.count x) ∧
      (fromRaw.length = fromGcs.length ↔ ∀ x ∈ elements, plains.count x ≤ elements.count x) := by
  obtain ⟨fromRaw, hfromRaw, hnodupRaw, hmemRaw⟩ :=
    PsiClient.processResponse_raw_spec sha256 S T build client hplains hraw
  obtain ⟨fromGcs, hfromGcs, hnodupGcs, hmemGcs⟩ := PsiClient.processResponse_gcs_spec sha256 S T build client
    hplains hgcs ⟨hdiv.1, by omega⟩ hrange hgcsExact
  obtain ⟨fromFilter, hfromFilter, hnodupFilter, hmemFilter⟩ :=
    PsiClient.processResponse_bloomFilter_spec sha256 T build client hplains hfilter husable hfilterExact
  have hintersection (setup : ServerSetup) : client.getIntersection sha256 T build setup response =
      client.processResponse sha256 T build setup response := if_neg (not_not.mpr hreveal)
  have hsize {setup : ServerSetup} {indices : List Nat}
      (h : client.processResponse sha256 T build setup response = .ok indices) :
      client.getIntersectionSize sha256 T build setup response = .ok indices.length := by
    rw [PsiClient.getIntersectionSize, h]
    rfl
  have hagree : (∀ i, i ∈ fromRaw ↔ i ∈ fromGcs) ↔ ∀ x ∈ elements, plains.count x ≤ elements.count x := by
    rw [← first_occurrences_iff]
    constructor
    · intro h i x hx
      have hi := h i
      rw [hmemRaw, hmemGcs] at hi
      simpa [hx] using hi
    · intro h i
      rw [hmemRaw, hmemGcs]
      exact exists_congr fun x => and_congr_right fun hx => h i x hx
  have hinside : ∀ i ∈ fromRaw, i ∈ fromGcs := by
    intro i hi
    obtain ⟨x, hx, hlt⟩ := (hmemRaw i).mp hi
    exact (hmemGcs i).mpr ⟨x, hx, List.count_pos_iff.mp (Nat.zero_lt_of_lt hlt)⟩
  have hsame : ∀ i, i ∈ fromGcs ↔ i ∈ fromFilter := fun i => (hmemGcs i).trans (hmemFilter i).symm
  refine ⟨fromRaw, fromGcs, fromFilter, (hintersection _).trans hfromRaw, (hintersection _).trans hfromGcs,
    (hintersection _).trans hfromFilter, hsize hfromRaw, hsize hfromGcs, hsize hfromFilter,
    ⟨hnodupRaw, hnodupGcs, hnodupFilter⟩, hmemGcs, hmemFilter, hmemRaw, ?_, hagree, ?_⟩
  · exact ((List.perm_ext_iff_of_nodup hnodupGcs hnodupFilter).mpr hsame).length_eq
  · rw [length_eq_iff hnodupRaw hnodupGcs hinside, hagree]

/-- Two elements of the server, and a client with one of them twice and another one. -/
theorem container_answers_example :
    let sha256 : Bytes → Nat := fun x => (x.getLastD 0).toNat
    let client : PsiClient := ⟨⟨.ok, .ok, .ok⟩, true⟩
    let response : Response := ⟨[[15], [4], [15]]⟩
    ∃ fromRaw fromGcs fromFilter,
      client.getIntersection sha256 .insertion .sequential (.raw ⟨[[3], [15]]⟩) response = .ok fromRaw ∧
      client.getIntersection sha256 .insertion .sequential (.gcs ⟨2, 16, [71, 0]⟩) response = .ok fromGcs ∧
      client.getIntersection sha256 .insertion .sequential (.bloomFilter ⟨3, [72, 226]⟩) response =
        .ok fromFilter ∧
      (0 ∈ fromRaw ∧ 2 ∉ fromRaw) ∧ (0 ∈ fromGcs ∧ 1 ∉ fromGcs ∧ 2 ∈ fromGcs) ∧
      fromGcs.length = fromFilter.length ∧ fromRaw.length ≠ fromGcs.length := by
  intro sha256 client response
  have hraw : Raw.create .insertion [[15], [3]] none = .ok (⟨[[3], [15]]⟩, [1, 0]) := by decide +kernel
  have hgcs : GCS.create sha256 .insertion (1 / 8 : ℚ) 2 [[15], [3]] = .ok ⟨[71, 0], 2, 16⟩ := by
    decide +kernel
  have hfilter : BloomFilter.create sha256 (1 / 8 : ℚ) 2 [[15], [3]] = .ok ⟨3, [72, 226]⟩ := by decide +kernel
  obtain ⟨fromRaw, fromGcs, fromFilter, hfromRaw, hfromGcs, hfromFilter, -, -, -, -, hmemGcs, -, hmemRaw, hlength, -,
      hagree⟩ :=
    container_answers sha256 .insertion .insertion .sequential client rfl
      (show response.encryptedElements.mapM client.ecCipher.decrypt = .ok [[15], [4], [15]] from rfl)
      hraw hgcs (by decide) (by decide) (by decide +kernel) hfilter ⟨by decide, by decide, by decide⟩ (by decide +kernel)
  refine ⟨fromRaw, fromGcs, fromFilter, hfromRaw, hfromGcs, hfromFilter, ⟨?_, ?_⟩, ⟨?_, ?_, ?_⟩, hlength, ?_⟩
  · exact (hmemRaw 0).mpr ⟨[15], rfl, by decide⟩
  · rw [hmemRaw]
    rintro ⟨x, hx, hcount⟩
    cases hx
    exact absurd hcount (by decide)
  · exact (hmemGcs 0).mpr ⟨[15], rfl, by decide⟩
  · rw [hmemGcs]
    rintro ⟨x, hx, hmem⟩
    cases hx
    exact absurd hmem (by decide)
  · exact (hmemGcs 2).mpr ⟨[15], rfl, by decide⟩
  · exact fun h => absurd (hagree.mp h) (by decide)

/-- A client that has an element twice which the server has once: the raw list answers
with one of its two indices, the other containers with both. -/
theorem containers_differ_on_a_repeat :
    let sha256 : Bytes → Nat := fun x => (x.getLastD 0).toNat
    let server : PsiServer := ⟨⟨.ok, .ok, .ok⟩, true⟩
    let client : PsiClient := ⟨⟨.ok, .ok, .ok⟩, true⟩
    let answer (ds : DataStructure) : StatusOr (List Nat) := do
      let (setup, _) ← server.createSetupMessage sha256 .insertion .sequential (1 / 4 : ℚ) 2 [[7]] ds none
      client.getIntersection sha256 .insertion .sequential setup ⟨[[7], [7]]⟩
    answer .raw = .ok [0] ∧ answer .gcs = .ok [0, 1] ∧ answer .bloomFilter = .ok [0, 1] := by
  decide +kernel

end Answers

end PrivateSetIntersection
