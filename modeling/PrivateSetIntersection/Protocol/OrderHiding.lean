import PrivateSetIntersection.Datastructure.BloomMembership
import PrivateSetIntersection.Datastructure.GcsRoundTrip
import PrivateSetIntersection.Protocol.Answers

/-! What a message hides: neither the setup nor a count-only response depends on the
order of the elements it was made from. -/
namespace PrivateSetIntersection
open Library

section Containers
variable {D : Type} [DoubleArithmetic D] (sha256 : Bytes → Nat) (S T : ComparisonSort)
  {elements elements' : List Bytes}

theorem sortedRaw_perm_eq (h : elements.Perm elements') : sortedRaw S elements = sortedRaw T elements' :=
  congrArg Raw.mk (arrange_unique S T h)

/-- The sorted hashes are those of either order, and are undefined in either. -/
private theorem sorted_hashes_perm (h : elements.Perm elements') (hashRange : Int) :
    (elements.mapM (fun element => GCS.hash sha256 element hashRange)).map
        (S.sort (fun a b => decide (a < b))) =
      (elements'.mapM (fun element => GCS.hash sha256 element hashRange)).map
        (T.sort (fun a b => decide (a < b))) := by
  have hless : ByKey id (fun a b : Nat => decide (a < b)) := fun _ _ => decide_eq_true_iff
  by_cases hrange : 0 < hashRange
  · rw [GCS.hashes_eq sha256 hrange, GCS.hashes_eq sha256 hrange, Option.map_some, Option.map_some,
      S.sort_eq_of_perm T hless hless (h.map _)]
  · by_cases hempty : elements = []
    · rw [hempty, List.nil_perm] at h
      rw [hempty, h, List.mapM_nil, Option.pure_def, Option.map_some, Option.map_some,
        S.sort_eq_of_perm T hless hless (List.Perm.refl [])]
    · have hempty' : elements' ≠ [] := fun heq => hempty (List.perm_nil.mp (heq ▸ h))
      rw [GCS.hashes_undefined sha256 hrange hempty, GCS.hashes_undefined sha256 hrange hempty']
      rfl

theorem GCS.create_perm (h : elements.Perm elements') (fpr : D) (numClientInputs : Int) :
    GCS.create sha256 S fpr numClientInputs elements =
      GCS.create sha256 T fpr numClientInputs elements' := by
  rw [GCS.create, GCS.create, h.length_eq]
  split
  · rfl
  · refine congrArg (StatusOr.ofOption _ >>= ·) (funext fun hashRange => ?_)
    have hsorted := sorted_hashes_perm sha256 S T h hashRange
    generalize elements.mapM (fun element => GCS.hash sha256 element hashRange) = hashes at hsorted ⊢
    generalize elements'.mapM (fun element => GCS.hash sha256 element hashRange) = hashes' at hsorted ⊢
    rcases hashes with _ | hashes <;> rcases hashes' with _ | hashes'
    · rfl
    · cases hsorted
    · cases hsorted
    · simp only [StatusOr.ofOption_some, StatusOr.ok_bind, Option.some.inj hsorted]

theorem BloomFilter.create_perm (h : elements.Perm elements') (fpr : D) (numClientInputs : Int) :
    BloomFilter.create sha256 fpr numClientInputs elements =
      BloomFilter.create sha256 fpr numClientInputs elements' := by
  simp only [BloomFilter.create, h.length_eq, BloomFilter.add_perm h]

end Containers

section Setup
variable {D : Type} [DoubleArithmetic D] (sha256 : Bytes → Nat) (S T : ComparisonSort)
  (build build' : Build) (server : PsiServer) {inputs inputs' : List Bytes}

/-- What a container asks of the rate, already corrected, and of the elements. A raw list asks
nothing. -/
def DataStructure.Accepts (ds : DataStructure) (correctedFpr : D) (numClientInputs : Int)
    (encrypted : List Bytes) : Prop :=
  match ds with
  | .raw => True
  | .gcs => ∃ hashRange div, GCS.Accepts sha256 S correctedFpr numClientInputs encrypted hashRange div
  | .bloomFilter => ∃ numHashFunctions numBytes,
      BloomFilter.Accepts correctedFpr numClientInputs encrypted numHashFunctions numBytes

/-- Where the container accepts them there is a message. -/
theorem PsiServer.createSetupMessage_accepted {encrypted : List Bytes}
    (hencrypt : inputs.mapM server.ecCipher.encrypt = .ok encrypted) {fpr : D} {numClientInputs : Int}
    {ds : DataStructure} (haccepts : ds.Accepts sha256 S
      (DoubleArithmetic.div fpr (DoubleArithmetic.ofInt numClientInputs)) numClientInputs encrypted)
    (ptr : Option (List Nat)) :
    ∃ made, server.createSetupMessage sha256 S build fpr numClientInputs inputs ds ptr = .ok made := by
  cases ds with
  | raw => exact ⟨_, PsiServer.createSetupMessage_raw sha256 S build server fpr numClientInputs hencrypt ptr⟩
  | gcs =>
    obtain ⟨hrange, div, haccepts⟩ := haccepts
    obtain ⟨container, hcreate, -⟩ := haccepts.create
    rw [PsiServer.createSetupMessage_gcs sha256 S build server fpr numClientInputs hencrypt ptr, hcreate]
    exact ⟨_, rfl⟩
  | bloomFilter =>
    obtain ⟨numHashFunctions, numBytes, haccepts⟩ := haccepts
    obtain ⟨container, hcreate⟩ : ∃ container, BloomFilter.create sha256
        (DoubleArithmetic.div fpr (DoubleArithmetic.ofInt numClientInputs)) numClientInputs encrypted = .ok container :=
      haccepts.create
    rw [PsiServer.createSetupMessage_bloomFilter sha256 S build server fpr numClientInputs hencrypt ptr, hcreate]
    exact ⟨_, rfl⟩

/-- Neither order of the inputs makes a difference to what the call ends in. -/
theorem PsiServer.createSetupMessage_perm (hperm : inputs.Perm inputs') {encrypted : List Bytes}
    (hencrypt : inputs.mapM server.ecCipher.encrypt = .ok encrypted) (fpr : D) (numClientInputs : Int)
    (ds : DataStructure) (ptr ptr' : Option (List Nat)) :
    Prod.fst <$> server.createSetupMessage sha256 S build fpr numClientInputs inputs ds ptr =
      Prod.fst <$> server.createSetupMessage sha256 T build' fpr numClientInputs inputs' ds ptr' := by
  obtain ⟨encrypted', hencrypt', hencrypted⟩ := Traversal.mapM_perm hperm hencrypt
  cases ds with
  | raw =>
    rw [PsiServer.createSetupMessage_raw sha256 S build server fpr numClientInputs hencrypt,
      PsiServer.createSetupMessage_raw sha256 T build' server fpr numClientInputs hencrypt',
      sortedRaw_perm_eq S T hencrypted]
    rfl
  | gcs =>
    rw [PsiServer.createSetupMessage_gcs sha256 S build server fpr numClientInputs hencrypt,
      PsiServer.createSetupMessage_gcs sha256 T build' server fpr numClientInputs hencrypt',
      GCS.create_perm (D := D) sha256 S T hencrypted]
    cases GCS.create sha256 T (DoubleArithmetic.div fpr (DoubleArithmetic.ofInt numClientInputs))
      numClientInputs encrypted' <;> rfl
  | bloomFilter =>
    rw [PsiServer.createSetupMessage_bloomFilter sha256 S build server fpr numClientInputs hencrypt,
      PsiServer.createSetupMessage_bloomFilter sha256 T build' server fpr numClientInputs hencrypt',
      BloomFilter.create_perm (D := D) sha256 hencrypted]
    cases BloomFilter.create sha256 (DoubleArithmetic.div fpr (DoubleArithmetic.ofInt numClientInputs))
      numClientInputs encrypted' <;> rfl

/-- From every order of the server's inputs one and the same setup message is made, whichever
container it holds. -/
theorem setup_hides_order (hperm : inputs.Perm inputs') {encrypted : List Bytes}
    (hencrypt : inputs.mapM server.ecCipher.encrypt = .ok encrypted) {fpr : D} {numClientInputs : Int}
    {ds : DataStructure} (haccepts : ds.Accepts sha256 S
      (DoubleArithmetic.div fpr (DoubleArithmetic.ofInt numClientInputs)) numClientInputs encrypted)
    (ptr ptr' : Option (List Nat)) :
    ∃ setup permutation permutation',
      server.createSetupMessage sha256 S build fpr numClientInputs inputs ds ptr = .ok (setup, permutation) ∧
      server.createSetupMessage sha256 T build' fpr numClientInputs inputs' ds ptr' =
        .ok (setup, permutation') := by
  obtain ⟨⟨setup, permutation⟩, hmade⟩ :=
    PsiServer.createSetupMessage_accepted sha256 S build server hencrypt haccepts ptr
  have hsame := PsiServer.createSetupMessage_perm sha256 S T build build' server hperm hencrypt fpr numClientInputs
    ds ptr ptr'
  rw [hmade] at hsame
  obtain ⟨⟨setup', permutation'⟩, hmade', hsetup⟩ := StatusOr.bind_eq_ok.mp hsame.symm
  obtain rfl := StatusOr.ok.inj hsetup
  exact ⟨setup', permutation, permutation', hmade, hmade'⟩

/-- Two inputs in both orders, in a Golomb compressed set. -/
theorem setup_hides_order_swapped :
    let server : PsiServer := ⟨⟨.ok, .ok, .ok⟩, false⟩
    let sha256 : Bytes → Nat := fun x => (x.headD 0).toNat
    ∃ permutation permutation',
      server.createSetupMessage sha256 .insertion .sequential (1 / 4 : ℚ) 2 [[15], [3]] .gcs none =
        .ok (.gcs ⟨2, 16, [71, 0]⟩, permutation) ∧
      server.createSetupMessage sha256 .insertion .sequential (1 / 4 : ℚ) 2 [[3], [15]] .gcs none =
        .ok (.gcs ⟨2, 16, [71, 0]⟩, permutation') := by
  intro server sha256
  have haccepts : DataStructure.gcs.Accepts sha256 .insertion
      (DoubleArithmetic.div (1 / 4 : ℚ) (DoubleArithmetic.ofInt 2)) 2 [[15], [3]] :=
    ⟨16, 2, by decide +kernel, by decide +kernel, by decide, fun _ => by decide +kernel, by decide⟩
  obtain ⟨setup, permutation, permutation', hmade, hmade'⟩ := setup_hides_order sha256 .insertion .insertion
    .sequential .sequential server (List.Perm.swap [3] [15] []) (by rfl) haccepts none none
  have hmessage : server.createSetupMessage sha256 .insertion .sequential (1 / 4 : ℚ) 2 [[15], [3]] .gcs none =
      .ok (.gcs ⟨2, 16, [71, 0]⟩, none) := by decide +kernel
  rw [hmade] at hmessage
  obtain ⟨rfl, rfl⟩ := Prod.mk.inj (StatusOr.ok.inj hmessage)
  exact ⟨none, permutation', hmade, hmade'⟩

end Setup

section Counts

/-- How many entries the merge keeps depends on their values alone. -/
theorem length_customSetIntersection {first first' : List (Bytes × Nat)}
    (h : first.map Prod.fst = first'.map Prod.fst) (second : List Bytes) :
    (customSetIntersection first second).length = (customSetIntersection first' second).length := by
  fun_induction customSetIntersection first second generalizing first' with
  | case1 second =>
    rw [List.map_nil, eq_comm, List.map_eq_nil_iff] at h
    rw [h, customSetIntersection]
  | case2 first hne =>
    cases first' with
    | nil => rw [customSetIntersection]
    | cons pair first' =>
      rw [customSetIntersection]
      exact List.cons_ne_nil pair first'
  | case3 x i first y second hlt ih =>
    obtain ⟨⟨x', i'⟩, rest, rfl, hx, hrest⟩ := List.map_eq_cons_iff.mp h.symm
    cases hx
    rw [customSetIntersection, if_pos hlt]
    exact ih hrest.symm
  | case4 x i first y second hlt heq ih =>
    obtain ⟨⟨x', i'⟩, rest, rfl, hx, hrest⟩ := List.map_eq_cons_iff.mp h.symm
    cases hx
    rw [customSetIntersection, if_neg hlt, if_pos heq, List.length_cons, List.length_cons, ih hrest.symm]
  | case5 x i first y second hlt heq ih =>
    obtain ⟨⟨x', i'⟩, rest, rfl, hx, hrest⟩ := List.map_eq_cons_iff.mp h.symm
    cases hx
    rw [customSetIntersection, if_neg hlt, if_neg heq]
    exact ih h

section Decoder
variable {arr arr' : List (Int × Nat)}

private theorem map_fst_dropWhile (h : arr.map Prod.fst = arr'.map Prod.fst) (p : Int → Bool) :
    (arr.dropWhile (fun pair => p pair.1)).map Prod.fst =
      (arr'.dropWhile (fun pair => p pair.1)).map Prod.fst := by
  have hmap := congrArg (List.dropWhile p) h
  rwa [List.dropWhile_map, List.dropWhile_map] at hmap

private theorem length_takeWhile_fst (h : arr.map Prod.fst = arr'.map Prod.fst) (p : Int → Bool) :
    (arr.takeWhile (fun pair => p pair.1)).length = (arr'.takeWhile (fun pair => p pair.1)).length := by
  have hmap := congrArg (fun values => (values.takeWhile p).length) h
  rwa [List.takeWhile_map, List.takeWhile_map, List.length_map, List.length_map] at hmap

/-- So does how many the Golomb decoder returns, and whether it returns. -/
theorem length_intersectFrom (s : Bytes) (div : Int) (fuel : Nat) (state : Golomb.Decoder)
    (h : arr.map Prod.fst = arr'.map Prod.fst) {res res' : List Nat} (hres : res.length = res'.length) :
    (Golomb.intersectFrom s div fuel state arr res).map List.length =
      (Golomb.intersectFrom s div fuel state arr' res').map List.length := by
  induction fuel generalizing state arr arr' res res' with
  | zero => rfl
  | succ fuel ih =>
    rw [Golomb.intersectFrom, Golomb.intersectFrom]
    rcases Golomb.decodeDelta s div state with _ | _ | state
    · rfl
    · exact congrArg some hres
    · have hbelow := map_fst_dropWhile h (fun v => decide (v < state.prefixSum))
      have hat := map_fst_dropWhile hbelow (fun v => decide (v = state.prefixSum))
      have hfound := length_takeWhile_fst hbelow (fun v => decide (v = state.prefixSum))
      have hlength := congrArg List.length hat
      rw [List.length_map, List.length_map] at hlength
      simp only [Option.bind_eq_bind, Option.bind_some]
      split <;> rename_i hempty
      · rw [hempty, List.length_nil, eq_comm, List.length_eq_zero_iff] at hlength
        rw [if_pos hlength]
        refine congrArg some ?_
        rw [List.length_append, List.length_append, List.length_map, List.length_map, hres, hfound]
      · rw [← List.length_eq_zero_iff, hlength, List.length_eq_zero_iff] at hempty
        rw [if_neg hempty]
        refine ih state hat ?_
        rw [List.length_append, List.length_append, List.length_map, List.length_map, hres, hfound]

theorem length_golombIntersect (s : Bytes) (div : Int) (h : arr.map Prod.fst = arr'.map Prod.fst) :
    (Golomb.golombIntersect s div arr).map List.length =
      (Golomb.golombIntersect s div arr').map List.length := by
  rw [Golomb.golombIntersect, Golomb.golombIntersect]
  split
  · rfl
  · exact length_intersectFrom _ _ _ _ h rfl

end Decoder

variable (sha256 : Bytes → Nat) (S T : ComparisonSort) {plains plains' : List Bytes}

private theorem sorted_pairs_values (elements : List Bytes) :
    ((S.sort Raw.pairLess elements.zipIdx).map Prod.fst).Perm elements := by
  have hmap := (S.perm Raw.pairLess elements.zipIdx).map Prod.fst
  rwa [List.zipIdx_map_fst] at hmap

theorem Raw.length_intersect_perm (raw : Raw) (h : plains.Perm plains') :
    (raw.intersect S plains).length = (raw.intersect T plains').length := by
  refine length_customSetIntersection (ascending_unique ?_ ?_ ?_) raw.encrypted
  · exact List.pairwise_map.mpr (sorted_pairs_ascending S plains)
  · exact List.pairwise_map.mpr (sorted_pairs_ascending T plains')
  · exact (sorted_pairs_values S plains).trans (h.trans (sorted_pairs_values T plains').symm)

private theorem sorted_hashes_values (hashRange : Int) (elements : List Bytes) :
    ((S.sort (fun a b => decide (a.1 < b.1)) (GCS.hashedIndices sha256 hashRange elements)).map
      Prod.fst).Perm (elements.map (fun element => (GCS.hashOf sha256 hashRange element : Int))) := by
  have hmap := (S.perm (fun a b => decide (a.1 < b.1))
    (GCS.hashedIndices sha256 hashRange elements)).map Prod.fst
  rwa [GCS.hashedIndices_fst] at hmap

theorem GCS.length_intersect_perm (gcs : GCS) (h : plains.Perm plains') :
    (gcs.intersect sha256 S plains).map List.length =
      (gcs.intersect sha256 T plains').map List.length := by
  by_cases hrange : 0 < gcs.hashRange
  · rw [GCS.intersect_eq sha256 S hrange, GCS.intersect_eq sha256 T hrange]
    refine length_golombIntersect _ _ (ascending_unique ?_ ?_ ?_)
    · exact List.pairwise_map.mpr (GCS.sortByHash_ascending S _)
    · exact List.pairwise_map.mpr (GCS.sortByHash_ascending T _)
    · exact (sorted_hashes_values sha256 S _ plains).trans
        ((h.map _).trans (sorted_hashes_values sha256 T _ plains').symm)
  · by_cases hempty : plains = []
    · rw [hempty, List.nil_perm] at h
      have hsort (U : ComparisonSort) : U.sort (fun a b : Int × Nat => decide (a.1 < b.1)) [] = [] :=
        List.perm_nil.mp (U.perm _ [])
      rw [hempty, h, GCS.intersect, GCS.intersect, List.zipIdx_nil, List.mapM_nil]
      simp only [Option.pure_def, Option.bind_eq_bind, Option.bind_some, hsort]
    · have hempty' : plains' ≠ [] := fun heq => hempty (List.perm_nil.mp (heq ▸ h))
      rw [GCS.intersect_undefined sha256 S hrange hempty,
        GCS.intersect_undefined sha256 T hrange hempty']

private theorem length_filter_zipIdx_snd (elements : List Bytes) (p : Bytes → Bool) :
    ((elements.zipIdx.filter (fun pair => p pair.1)).map Prod.snd).length = elements.countP p := by
  rw [List.length_map, ← List.countP_eq_length_filter]
  conv_rhs => rw [← List.zipIdx_map_fst 0 elements, List.countP_map]
  rfl

theorem BloomFilter.length_intersect_perm (filter : BloomFilter) (h : plains.Perm plains') :
    (filter.intersect sha256 plains).map List.length = (filter.intersect sha256 plains').map List.length := by
  by_cases hall : ∀ x ∈ plains, filter.check sha256 x = some ((filter.check sha256 x).getD false)
  · rw [BloomFilter.intersect_eq hall, BloomFilter.intersect_eq fun x hx => hall x (h.mem_iff.mpr hx)]
    have hpresent (xs : List Bytes) :=
      length_filter_zipIdx_snd xs (fun x => (filter.check sha256 x).getD false)
    rw [Option.map_some, Option.map_some, hpresent, hpresent, h.countP_eq]
  · push Not at hall
    obtain ⟨x, hx, hcheck⟩ := hall
    have hnone : filter.check sha256 x = none := by
      cases hanswer : filter.check sha256 x with
      | none => rfl
      | some answer => exact absurd (by rw [hanswer]; rfl) hcheck
    rw [BloomFilter.intersect_undefined hx hnone, BloomFilter.intersect_undefined (h.mem_iff.mp hx) hnone]

end Counts

section Response
variable (sha256 : Bytes → Nat) (S T : ComparisonSort) (build build' : Build) (client : PsiClient)
  {response response' : Response}

theorem PsiClient.getIntersectionSize_eq (serverSetup : ServerSetup) :
    client.getIntersectionSize sha256 S build serverSetup response =
      List.length <$> client.processResponse sha256 S build serverSetup response := rfl

private theorem length_ofOption (o : Option (List Nat)) :
    List.length <$> StatusOr.ofOption o = StatusOr.ofOption (o.map List.length) := by
  cases o <;> rfl

/-- The count does not depend on the order of the response, whichever container the setup holds. -/
theorem PsiClient.getIntersectionSize_perm
    (hperm : response.encryptedElements.Perm response'.encryptedElements)
    (hdecrypt : ∀ element ∈ response.encryptedElements,
      ∃ plain, client.ecCipher.decrypt element = .ok plain)
    (serverSetup : ServerSetup) :
    client.getIntersectionSize sha256 S build serverSetup response =
      client.getIntersectionSize sha256 T build' serverSetup response' := by
  obtain ⟨plains, hplains⟩ := Traversal.exists_mapM_ok_iff.mpr hdecrypt
  obtain ⟨plains', hplains', h⟩ := Traversal.mapM_perm hperm hplains
  rw [getIntersectionSize_eq, getIntersectionSize_eq]
  cases serverSetup with
  | dataStructureNotSet =>
    rw [PsiClient.processResponse, PsiClient.processResponse, PsiClient.decryptResponse_eq,
      PsiClient.decryptResponse_eq, hplains, hplains']
    rfl
  | raw info =>
    rw [PsiClient.processResponse_raw sha256 S build client hplains,
      PsiClient.processResponse_raw sha256 T build' client hplains']
    exact congrArg StatusOr.ok (Raw.length_intersect_perm S T _ h)
  | gcs info =>
    rw [PsiClient.processResponse_gcs sha256 S build client hplains,
      PsiClient.processResponse_gcs sha256 T build' client hplains']
    change List.length <$> StatusOr.ofOption
        (GCS.intersect sha256 S ⟨info.bits, info.div, info.hashRange⟩ plains) =
      List.length <$> StatusOr.ofOption
        (GCS.intersect sha256 T ⟨info.bits, info.div, info.hashRange⟩ plains')
    rw [length_ofOption, length_ofOption, GCS.length_intersect_perm sha256 S T _ h]
  | bloomFilter info =>
    rw [PsiClient.processResponse_bloomFilter sha256 S build client hplains,
      PsiClient.processResponse_bloomFilter sha256 T build' client hplains']
    change List.length <$> StatusOr.ofOption
        (BloomFilter.intersect sha256 ⟨info.numHashFunctions, info.bits⟩ plains) =
      List.length <$> StatusOr.ofOption
        (BloomFilter.intersect sha256 ⟨info.numHashFunctions, info.bits⟩ plains')
    rw [length_ofOption, length_ofOption, BloomFilter.length_intersect_perm sha256 _ h]

theorem PsiClient.getIntersectionSize_sort (serverSetup : ServerSetup) (response : Response) :
    client.getIntersectionSize sha256 S build serverSetup response =
      client.getIntersectionSize sha256 T build' serverSetup response := by
  cases hplains : response.encryptedElements.mapM client.ecCipher.decrypt with
  | ok plains =>
    exact getIntersectionSize_perm sha256 S T build build' client (List.Perm.refl _)
      (Traversal.exists_mapM_ok_iff.mp ⟨plains, hplains⟩) serverSetup
  | error e =>
    rw [getIntersectionSize_error sha256 S build client hplains,
      getIntersectionSize_error sha256 T build' client hplains]

theorem PsiServer.processRequest_count_only {server : PsiServer} {requested : List Bytes}
    (hreveal : server.revealIntersection = false) :
    server.processRequest S build ⟨false, requested⟩ =
      match requested.mapM server.ecCipher.reEncrypt with
      | .ok reencrypted => .ok ⟨S.sort stringLess reencrypted⟩
      | .error e => .error e := by
  rw [PsiServer.processRequest_eq S build server hreveal.symm]
  cases requested.mapM server.ecCipher.reEncrypt with
  | ok reencrypted =>
    dsimp only
    rw [hreveal, if_neg Bool.false_ne_true]
  | error e => rfl

/-- A count-only server answers requests that differ in their order alike: it fails on both,
or sends both the ascending arrangement of the re-encryptions; so the client's count is
that of either request. -/
theorem count_only_response_hides_order {server : PsiServer} {requested requested' : List Bytes}
    (hreveal : server.revealIntersection = false) (hperm : requested.Perm requested') :
    let answer := PsiServer.processRequest S build server ⟨false, requested⟩
    let answer' := PsiServer.processRequest T build' server ⟨false, requested'⟩
    ((∃ e e', answer = .error e ∧ answer' = .error e') ∨
      ∃ response reencrypted, answer = .ok response ∧ answer' = .ok response ∧
        requested.mapM server.ecCipher.reEncrypt = .ok reencrypted ∧
        response.encryptedElements.Perm reencrypted ∧ response.encryptedElements.Pairwise (· ≤ ·)) ∧
      ∀ response response', answer = .ok response → answer' = .ok response' →
        ∀ (S' T' : ComparisonSort) (b b' : Build) (serverSetup : ServerSetup),
          PsiClient.getIntersectionSize sha256 S' b client serverSetup response =
            PsiClient.getIntersectionSize sha256 T' b' client serverSetup response' := by
  intro answer answer'
  have hless : ByKey id stringLess := fun _ _ => decide_eq_true_iff
  have hanswer : answer = _ := PsiServer.processRequest_count_only S build hreveal
  have hanswer' : answer' = _ := PsiServer.processRequest_count_only T build' hreveal
  cases hre : requested.mapM server.ecCipher.reEncrypt with
  | ok reencrypted =>
    obtain ⟨reencrypted', hre', h⟩ := Traversal.mapM_perm hperm hre
    rw [hre] at hanswer
    rw [hre'] at hanswer'
    dsimp only at hanswer'
    rw [← S.sort_eq_of_perm T hless hless h] at hanswer'
    refine ⟨Or.inr ⟨_, reencrypted, hanswer, hanswer', rfl, S.perm _ _, S.sort_ascending hless _⟩, ?_⟩
    intro response response' hresponse hresponse'
    obtain rfl := StatusOr.ok.inj (hanswer.symm.trans hresponse)
    obtain rfl := StatusOr.ok.inj (hanswer'.symm.trans hresponse')
    exact fun S' T' b b' serverSetup => client.getIntersectionSize_sort sha256 S' T' b b' serverSetup _
  | error e =>
    rw [hre] at hanswer
    cases hre' : requested'.mapM server.ecCipher.reEncrypt with
    | ok reencrypted' =>
      obtain ⟨reencrypted, hok, -⟩ := Traversal.mapM_perm hperm.symm hre'
      exact nomatch hre.symm.trans hok
    | error e' =>
      rw [hre'] at hanswer'
      exact ⟨Or.inl ⟨e, e', hanswer, hanswer'⟩,
        fun _ _ hresponse => nomatch hanswer.symm.trans hresponse⟩

/-- Two requests of repeated elements, one the reverse of the other. -/
theorem count_only_response_hides_order_reversed :
    let server : PsiServer := ⟨⟨.ok, .ok, .ok⟩, false⟩
    let answer := server.processRequest .insertion .sequential ⟨false, [[2], [1], [1]]⟩
    let answer' := server.processRequest .insertion .sequential ⟨false, [[1], [1], [2]]⟩
    (∃ e e', answer = .error e ∧ answer' = .error e') ∨
      ∃ response reencrypted, answer = .ok response ∧ answer' = .ok response ∧
        [[2], [1], [1]].mapM server.ecCipher.reEncrypt = .ok reencrypted ∧
        response.encryptedElements.Perm reencrypted ∧ response.encryptedElements.Pairwise (· ≤ ·) :=
  (count_only_response_hides_order (fun _ => 0) .insertion .insertion .sequential .sequential
    ⟨⟨.ok, .ok, .ok⟩, false⟩ rfl (List.reverse_perm [[1], [1], [2]])).1

end Response

end PrivateSetIntersection
