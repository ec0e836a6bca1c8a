import PrivateSetIntersection.Library.Occurrences
import PrivateSetIntersection.Protocol.Containers
import PrivateSetIntersection.Protocol.EndToEnd
import PrivateSetIntersection.Protocol.OrderHiding
import PrivateSetIntersection.Protocol.UntrustedSetup

/-! One exchange, from both parties' inputs to the client's answer: what it says about the
inputs, in either mode and with each of the three containers. -/
namespace PrivateSetIntersection
open Library Occurrences

section Calls
variable {D : Type} [DoubleArithmetic D] (sha256 : Bytes → Nat) (S : ComparisonSort) (build build' : Build)

def exchange (server : PsiServer) (client : PsiClient) (fpr : D) (numClientInputs : Int)
    (serverInputs clientInputs : List Bytes) (ds : DataStructure) :
    StatusOr (ServerSetup × Request × Response) := do
  let (setup, _) ← server.createSetupMessage sha256 S build fpr numClientInputs serverInputs ds none
  let request ← client.createRequest build' clientInputs
  let response ← server.processRequest S build request
  return (setup, request, response)

end Calls

section Masked
variable {server : PsiServer} {client : PsiClient} {serverInputs clientInputs : List Bytes}

def PsiServer.masked (server : PsiServer) (x : Bytes) : Bytes := (server.ecCipher.encrypt x).toOption.getD []

theorem PsiServer.eq_map_masked {inputs elements : List Bytes}
    (h : inputs.mapM server.ecCipher.encrypt = .ok elements) : elements = inputs.map server.masked := by
  rw [Traversal.mapM_eq_ok_iff] at h
  induction h with
  | nil => rfl
  | @cons x y inputs elements hx _ ih =>
    have hmasked : server.masked x = y := by
      rw [PsiServer.masked, hx]
      rfl
    rw [List.map_cons, ← ih, hmasked]

theorem Commutes.masked_injective (h : Commutes server client serverInputs clientInputs) :
    ∀ x y, x ∈ clientInputs ∨ x ∈ serverInputs → y ∈ clientInputs ∨ y ∈ serverInputs →
      server.masked x = server.masked y → x = y := by
  have hdefined : ∀ x, x ∈ clientInputs ∨ x ∈ serverInputs → server.ecCipher.encrypt x = .ok (server.masked x) := by
    rintro x (hx | hx)
    · obtain ⟨_, _, y, -, -, -, hy⟩ := h.commute x hx
      rw [PsiServer.masked, hy]
      rfl
    · obtain ⟨y, hy⟩ := h.encrypt x hx
      rw [PsiServer.masked, hy]
      rfl
  intro x y hx hy hmasked
  refine h.injective x y hx.symm hy.symm ?_
  rw [hdefined x hx, hdefined y hy, hmasked]

/-- Rows of equal inputs are rows that look alike. -/
theorem Commutes.rows_iff (h : Commutes server client serverInputs clientInputs) (i j : Nat) :
    (∃ y, (clientInputs.map server.masked)[i]? = some y ∧ (serverInputs.map server.masked)[j]? = some y) ↔
      ∃ x, clientInputs[i]? = some x ∧ serverInputs[j]? = some x := by
  rw [List.getElem?_map, List.getElem?_map]
  constructor
  · rintro ⟨y, hi, hj⟩
    obtain ⟨x, hx, rfl⟩ := Option.map_eq_some_iff.mp hi
    obtain ⟨x', hx', hmasked⟩ := Option.map_eq_some_iff.mp hj
    obtain rfl := h.masked_injective x' x (Or.inr (List.mem_of_getElem? hx'))
      (Or.inl (List.mem_of_getElem? hx)) hmasked
    exact ⟨x', hx, hx'⟩
  · rintro ⟨x, hi, hj⟩
    exact ⟨server.masked x, by rw [hi, Option.map_some], by rw [hj, Option.map_some]⟩

end Masked

structure ECCommutativeCipher.Compressed (cipher : ECCommutativeCipher) : Prop where
  encrypt : ∀ x y, cipher.encrypt x = .ok y → y.length ≤ 33
  reEncrypt : ∀ x y, cipher.reEncrypt x = .ok y → y.length ≤ 33

section Response
variable (S : ComparisonSort) (build build' : Build) {server : PsiServer} {client : PsiClient}
  {serverInputs clientInputs : List Bytes}

/-- The response of a server in the client's mode decrypts to the client's inputs under the
server's key, in the client's order if the intersection is revealed. -/
theorem Commutes.response (hcipher : Commutes server client serverInputs clientInputs)
    (hmode : client.revealIntersection = server.revealIntersection) :
    ∃ request response plains, client.createRequest build' clientInputs = .ok request ∧
      server.processRequest S build request = .ok response ∧
      response.encryptedElements.mapM client.ecCipher.decrypt = .ok plains ∧
      plains.Perm (clientInputs.map server.masked) ∧
      if client.revealIntersection then plains = clientInputs.map server.masked
      else response.encryptedElements.Pairwise (· ≤ ·) := by
  obtain ⟨requested, reencrypted, plains, hrequested, hreencrypted, hplains, hmasked⟩ := hcipher.traverse
  have hrequest := PsiClient.createRequest_eq build' client clientInputs
  rw [hrequested] at hrequest
  have hresponse : server.processRequest S build ⟨client.revealIntersection, requested⟩ = _ :=
    PsiServer.processRequest_eq S build server hmode
  rw [show (Request.mk client.revealIntersection requested).encryptedElements = requested from rfl,
    hreencrypted, ← hmode] at hresponse
  dsimp only at hresponse
  obtain rfl := PsiServer.eq_map_masked hmasked
  split <;> rename_i hreveal
  · rw [if_pos hreveal] at hresponse
    exact ⟨_, _, _, hrequest, hresponse, hplains, .refl _, rfl⟩
  · rw [if_neg hreveal] at hresponse
    obtain ⟨plains', hplains', hperm⟩ := Traversal.mapM_perm (S.perm stringLess reencrypted).symm hplains
    exact ⟨_, _, plains', hrequest, hresponse, hplains', hperm.symm,
      S.sort_ascending (show ByKey id stringLess from fun _ _ => decide_eq_true_iff) _⟩

/-- What a response holds are re-encrypted elements. -/
theorem PsiServer.mem_response {request : Request} {response : Response}
    (h : server.processRequest S build request = .ok response) :
    ∀ element ∈ response.encryptedElements, ∃ x, server.ecCipher.reEncrypt x = .ok element := by
  by_cases hmode : request.revealIntersection = server.revealIntersection
  · rw [PsiServer.processRequest_eq S build server hmode] at h
    cases hreencrypted : request.encryptedElements.mapM server.ecCipher.reEncrypt with
    | error e =>
      rw [hreencrypted] at h
      cases h
    | ok reencrypted =>
      rw [hreencrypted] at h
      cases h
      intro element helement
      have hmem : element ∈ reencrypted := by
        dsimp only at helement
        split at helement
        · exact helement
        · exact (S.perm stringLess reencrypted).mem_iff.mp helement
      obtain ⟨i, hi⟩ := List.mem_iff_getElem?.mp hmem
      obtain ⟨x, -, hx⟩ := (Traversal.getElem?_of_mapM_ok hreencrypted i element).mp hi
      exact ⟨x, hx⟩
  · rw [PsiServer.processRequest, if_neg (by simp [Request.isInitialized]), if_pos hmode] at h
    cases h

end Response

section Raw
variable {D : Type} [DoubleArithmetic D] (sha256 : Bytes → Nat) (S S' : ComparisonSort)
  (build build' : Build) (fpr : D) (numClientInputs : Int) {server : PsiServer} {client : PsiClient}
  {serverInputs clientInputs : List Bytes}

/-- A client's answer from a raw list, asked with the elements of the inputs in any order. -/
theorem Commutes.raw_size (hcipher : Commutes server client serverInputs clientInputs) {plains : List Bytes}
    (hplains : plains.Perm (clientInputs.map server.masked)) :
    ((sortedRaw S (serverInputs.map server.masked)).intersect S' plains).length =
      ((clientInputs : Multiset Bytes) ∩ serverInputs).card := by
  have hascending := sortedRaw_ascending S (serverInputs.map server.masked)
  rw [length_of_mem_iff (Raw.nodup_intersect S' plains hascending)
      (Raw.mem_intersect_iff S' plains hascending),
    Multiset.coe_eq_coe.mpr hplains, Multiset.coe_eq_coe.mpr (sortedRaw_perm S _)]
  exact card_map_inter hcipher.masked_injective

theorem Commutes.raw_indices (hcipher : Commutes server client serverInputs clientInputs) (i : Nat) :
    i ∈ (sortedRaw S (serverInputs.map server.masked)).intersect S' (clientInputs.map server.masked) ↔
      Within clientInputs serverInputs i := by
  rw [Raw.mem_intersect_iff S' _ (sortedRaw_ascending S _)]
  simp only [(sortedRaw_perm S _).count_eq]
  exact within_map hcipher.masked_injective i

theorem PsiServer.processRequest_mismatch {request : Request}
    (h : request.revealIntersection ≠ server.revealIntersection) :
    server.processRequest S build request = .error (invalidArgumentError
      ("Client expects `reveal_intersection` = " ++ boolText request.revealIntersection
        ++ ", but it is actually " ++ boolText server.revealIntersection)) := by
  rw [PsiServer.processRequest, if_neg (by simp [Request.isInitialized]), if_pos h]

/-- What a client of the server's mode learns from a raw list and the response to its request. -/
theorem Commutes.raw_answers (hcipher : Commutes server client serverInputs clientInputs)
    (hmode : client.revealIntersection = server.revealIntersection) :
    let setup := ServerSetup.raw ⟨(sortedRaw S (serverInputs.map server.masked)).encrypted⟩
    ∃ request response, client.createRequest build' clientInputs = .ok request ∧
      server.processRequest S build request = .ok response ∧
      client.getIntersectionSize sha256 S' build' setup response =
        .ok ((clientInputs : Multiset Bytes) ∩ serverInputs).card ∧
      if client.revealIntersection then
        ∃ indices, client.getIntersection sha256 S' build' setup response = .ok indices ∧ indices.Nodup ∧
          ∀ i, i ∈ indices ↔ Within clientInputs serverInputs i
      else
        response.encryptedElements.Pairwise (· ≤ ·) ∧
        client.getIntersection sha256 S' build' setup response = .error (invalidArgumentError
          "GetIntersection called on PsiClient with reveal_intersection == false") ∧
        client.getAssociationTable S' build' setup response = .error (invalidArgumentError
          "GetAssociationTable called on PsiClient with reveal_intersection == false") := by
  intro setup
  obtain ⟨request, response, plains, hrequest, hresponse, hplains, hperm, horder⟩ :=
    hcipher.response S build build' hmode
  have hanswer : client.processResponse sha256 S' build' setup response = _ :=
    PsiClient.processResponse_raw sha256 S' build' client hplains _
  refine ⟨request, response, hrequest, hresponse, ?_, ?_⟩
  · rw [PsiClient.getIntersectionSize, hanswer]
    exact congrArg StatusOr.ok (hcipher.raw_size S S' hperm)
  · split <;> rename_i hreveal
    · rw [if_pos hreveal] at horder
      subst horder
      refine ⟨_, ?_, Raw.nodup_intersect S' _ (sortedRaw_ascending S _), hcipher.raw_indices S S'⟩
      rw [PsiClient.getIntersection, if_neg (not_not.mpr hreveal), hanswer]
    · rw [if_neg hreveal] at horder
      refine ⟨horder, ?_, ?_⟩
      · rw [PsiClient.getIntersection, if_pos hreveal]
      · rw [PsiClient.getAssociationTable, if_pos hreveal]

/-- Both parties' calls with a raw list. In one mode, the size is that of the multiset
intersection of their inputs, and the indices, if they are revealed, are those of it that come
first; in a count-only exchange the response is in an order of its own, and nothing but the
size is given. In two modes, the server refuses the request. -/
theorem intersection_end_to_end (hcipher : Commutes server client serverInputs clientInputs) :
    let run := exchange sha256 S build build' server client fpr numClientInputs serverInputs clientInputs .raw
    if client.revealIntersection = server.revealIntersection then
      ∃ setup request response, run = .ok (setup, request, response) ∧
        client.getIntersectionSize sha256 S' build' setup response =
          .ok ((clientInputs : Multiset Bytes) ∩ serverInputs).card ∧
        if client.revealIntersection then
          ∃ indices, client.getIntersection sha256 S' build' setup response = .ok indices ∧ indices.Nodup ∧
            ∀ i, i ∈ indices ↔ Within clientInputs serverInputs i
        else
          response.encryptedElements.Pairwise (· ≤ ·) ∧
          client.getIntersection sha256 S' build' setup response = .error (invalidArgumentError
            "GetIntersection called on PsiClient with reveal_intersection == false") ∧
          client.getAssociationTable S' build' setup response = .error (invalidArgumentError
            "GetAssociationTable called on PsiClient with reveal_intersection == false")
    else run = .error (invalidArgumentError
      ("Client expects `reveal_intersection` = " ++ boolText client.revealIntersection
        ++ ", but it is actually " ++ boolText server.revealIntersection)) := by
  intro run
  obtain ⟨elements, helements⟩ := Traversal.exists_mapM_ok_iff.mpr hcipher.encrypt
  have hsetup := PsiServer.createSetupMessage_raw sha256 S build server fpr numClientInputs helements none
  obtain rfl := PsiServer.eq_map_masked helements
  split <;> rename_i hmode
  · obtain ⟨request, response, hrequest, hresponse, hsize, hanswers⟩ :=
      hcipher.raw_answers sha256 S S' build build' hmode
    refine ⟨_, request, response, ?_, hsize, hanswers⟩
    simp only [run, exchange, hsetup, hrequest, hresponse, StatusOr.ok_bind, StatusOr.pure_eq]
  · obtain ⟨requested, -, -, hrequested, -⟩ := hcipher.traverse
    have hrequest := PsiClient.createRequest_eq build' client clientInputs
    rw [hrequested] at hrequest
    have hrefused : server.processRequest S build ⟨client.revealIntersection, requested⟩ = _ :=
      PsiServer.processRequest_mismatch S build hmode
    simp only [run, exchange, hsetup, hrequest, hrefused, StatusOr.ok_bind, StatusOr.error_bind]

theorem xorCipher_commutes (serverKey clientKey : UInt8) (serverReveals clientReveals : Bool)
    (serverInputs clientInputs : List Bytes) :
    Commutes ⟨xorCipher serverKey, serverReveals⟩ ⟨xorCipher clientKey, clientReveals⟩ serverInputs clientInputs := by
  have hcommute (x : Bytes) : x.map (· ^^^ serverKey) =
      ((x.map (· ^^^ clientKey)).map (· ^^^ serverKey)).map (· ^^^ clientKey) := by
    rw [List.map_map, List.map_map]
    refine List.map_congr_left fun byte _ => ?_
    rw [Function.comp_apply, Function.comp_apply, UInt8.xor_assoc, UInt8.xor_assoc,
      UInt8.xor_comm serverKey clientKey, ← UInt8.xor_assoc clientKey clientKey, UInt8.xor_self, UInt8.zero_xor]
  have hinjective : Function.Injective (fun x : Bytes => x.map (· ^^^ serverKey)) :=
    List.map_injective_iff.mpr fun _ _ h => UInt8.xor_left_inj serverKey |>.mp h
  exact ⟨fun x _ => ⟨_, rfl⟩, fun x _ => ⟨_, _, _, rfl, rfl, rfl, congrArg Except.ok (hcommute x)⟩,
    fun _ _ _ _ h => hinjective (Except.ok.inj h)⟩

def pointCipher (key : UInt8) : ECCommutativeCipher :=
  let op (x : Bytes) : Except Error Bytes :=
    if x.length ≤ 33 then .ok (x.map (· ^^^ key)) else .error (invalidArgumentError "not a point")
  ⟨op, op, op⟩

theorem pointCipher_compressed (key : UInt8) : (pointCipher key).Compressed := by
  have hop (x y : Bytes) (h : (pointCipher key).encrypt x = .ok y) : y.length ≤ 33 := by
    change (if x.length ≤ 33 then _ else _) = _ at h
    split at h <;> cases h
    rwa [List.length_map]
  exact ⟨hop, hop⟩

theorem pointCipher_commutes (serverKey clientKey : UInt8) (reveal : Bool) {serverInputs clientInputs : List Bytes}
    (hserver : ∀ x ∈ serverInputs, x.length ≤ 33) (hclient : ∀ x ∈ clientInputs, x.length ≤ 33) :
    Commutes ⟨pointCipher serverKey, reveal⟩ ⟨pointCipher clientKey, reveal⟩ serverInputs clientInputs := by
  have hop (key : UInt8) {x : Bytes} (h : x.length ≤ 33) :
      (pointCipher key).encrypt x = (xorCipher key).encrypt x := if_pos h
  have hxor := xorCipher_commutes serverKey clientKey reveal reveal serverInputs clientInputs
  have hshort {x : Bytes} (h : x ∈ serverInputs ∨ x ∈ clientInputs) : x.length ≤ 33 :=
    h.elim (hserver x) (hclient x)
  refine ⟨fun x hx => ⟨_, hop serverKey (hserver x hx)⟩, fun x hx => ?_, fun x y hx hy h => ?_⟩
  · obtain ⟨a, b, y, ha, hb, hy, hxy⟩ := hxor.commute x hx
    cases ha
    cases hb
    have hx33 := hclient x hx
    refine ⟨_, _, y, hop clientKey hx33, if_pos ?_, (if_pos ?_).trans hy, (hop serverKey hx33).trans hxy⟩
    · rwa [List.length_map]
    · rwa [List.length_map, List.length_map]
  · refine hxor.injective x y hx hy ?_
    exact (hop serverKey (hshort hx)).symm.trans (h.trans (hop serverKey (hshort hy)))

/-- Counting only, with an input that is on both sides twice. -/
theorem intersection_end_to_end_counted :
    ∃ setup request response,
      exchange (fun _ => 0) .insertion .sequential .sequential ⟨xorCipher 5, false⟩ ⟨xorCipher 3, false⟩
        (1 / 2 : ℚ) 1 [[2], [1], [2]] [[2], [3], [2]] .raw = .ok (setup, request, response) ∧
      PsiClient.getIntersectionSize (fun _ => 0) .insertion .sequential ⟨xorCipher 3, false⟩ setup response =
        .ok 2 ∧
      response.encryptedElements.Pairwise (· ≤ ·) := by
  have h := intersection_end_to_end (fun _ => 0) .insertion .insertion .sequential .sequential (1 / 2 : ℚ) 1
    (xorCipher_commutes 5 3 false false [[2], [1], [2]] [[2], [3], [2]])
  rw [if_pos rfl] at h
  obtain ⟨setup, request, response, hrun, hsize, horder⟩ := h
  exact ⟨setup, request, response, hrun, hsize, horder.1⟩

end Raw

section Containers
variable {D : Type} [DoubleArithmetic D] {sha256 : Bytes → Nat} {S : ComparisonSort} (T : ComparisonSort)
  {build : Build} (build' : Build) {fpr : D} {numClientInputs : Int} {server : PsiServer} {client : PsiClient}

/-- The encoder shifts by the divisor it reports, so it is one that a shift is defined for. -/
theorem Golomb.div_of_golombCompress {sortedArr : List Nat} {divParam : Int} {compressed : GolombCompressed}
    (h : golombCompress D sortedArr divParam = some compressed) : 0 ≤ compressed.div ∧ compressed.div < 64 := by
  by_cases hne : sortedArr = []
  · subst hne
    cases h
    decide
  · obtain ⟨div, state, -, hfold, rfl⟩ := (golombCompress_eq_some_iff hne).mp h
    obtain ⟨curr, rest, rfl⟩ := List.exists_cons_of_ne_nil hne
    rw [List.foldlM_cons, encodeElement, if_pos (Or.inl rfl), shiftCount] at hfold
    split at hfold
    · assumption
    · cases hfold

theorem GCS.div_of_create {elements : List Bytes} {gcs : GCS}
    (h : GCS.create sha256 S fpr numClientInputs elements = .ok gcs) : 0 ≤ gcs.div ∧ gcs.div < 64 := by
  obtain ⟨-, hashes, -, hcompressed⟩ := GCS.create_eq_ok h
  exact Golomb.div_of_golombCompress hcompressed

/-- A setup that can be asked: a set with a range for its hashes, a filter with bits, and
positions that stay within 64 bits. -/
def ServerSetup.Usable : ServerSetup → Prop
  | .gcs info => 0 < info.hashRange ∧ info.hashRange < 2 ^ 63
  | .bloomFilter info => BloomFilter.Usable ⟨info.numHashFunctions, info.bits⟩
  | _ => True

structure Finds (plains elements : List Bytes) (indices : List Nat) : Prop where
  nodup : indices.Nodup
  inside : ∀ i ∈ indices, i < plains.length
  common : ∀ x ∈ plains, x ∈ elements → ∃ i ∈ indices, plains[i]? = some x

theorem Finds.of_mem {plains elements : List Bytes} {indices : List Nat} {Found : Bytes → Prop}
    (hnodup : indices.Nodup) (hmem : ∀ i, i ∈ indices ↔ ∃ x, plains[i]? = some x ∧ Found x)
    (hfound : ∀ x ∈ elements, Found x) : Finds plains elements indices where
  nodup := hnodup
  inside i hi := by
    obtain ⟨x, hx, -⟩ := (hmem i).mp hi
    exact (List.getElem?_eq_some_iff.mp hx).1
  common x hx hy := by
    obtain ⟨i, hi⟩ := List.mem_iff_getElem?.mp hx
    exact ⟨i, (hmem i).mpr ⟨x, hi, hfound x hy⟩, hi⟩

variable {elements plains : List Bytes} {response : Response}

theorem PsiClient.processResponse_raw_finds
    (hplains : response.encryptedElements.mapM client.ecCipher.decrypt = .ok plains) :
    ∃ indices, client.processResponse sha256 T build' (.raw ⟨(sortedRaw S elements).encrypted⟩) response =
      .ok indices ∧ Finds plains elements indices := by
  have hascending := sortedRaw_ascending S elements
  refine ⟨_, PsiClient.processResponse_raw sha256 T build' client hplains _,
    Raw.nodup_intersect T plains hascending, fun i hi => ?_, fun x hx hy => ?_⟩
  · obtain ⟨x, hx, -⟩ := (Raw.mem_intersect_iff T plains hascending i).mp hi
    exact (List.getElem?_eq_some_iff.mp hx).1
  · obtain ⟨i, hi, hwithin⟩ := exists_within hx ((sortedRaw_perm S elements).mem_iff.mpr hy)
    exact ⟨i, (Raw.mem_intersect_iff T plains hascending i).mpr hwithin, hi⟩

theorem PsiClient.processResponse_gcs_finds
    (hplains : response.encryptedElements.mapM client.ecCipher.decrypt = .ok plains) {gcs : GCS}
    (hgcs : GCS.create sha256 S fpr numClientInputs elements = .ok gcs)
    (hrange : 0 < gcs.hashRange ∧ gcs.hashRange < 2 ^ 63) :
    ∃ indices, client.processResponse sha256 T build' gcs.toProtobuf response = .ok indices ∧
      Finds plains elements indices := by
  have hdiv := GCS.div_of_create hgcs
  obtain ⟨indices, hintersect, hnodup, hmem⟩ := GCS.intersect_spec sha256 T hgcs hdiv hrange plains
  refine ⟨indices, ?_, .of_mem hnodup hmem fun x hx => ⟨x, hx, rfl⟩⟩
  rw [GCS.toProtobuf, PsiClient.processResponse_gcs sha256 T build' client hplains, ← GCS.toProtobuf,
    GCS.createFromProtobuf_toProtobuf hdiv, StatusOr.ok_bind, hintersect, StatusOr.ofOption_some]

theorem PsiClient.processResponse_bloomFilter_finds
    (hplains : response.encryptedElements.mapM client.ecCipher.decrypt = .ok plains) {filter : BloomFilter}
    (hfilter : BloomFilter.create sha256 fpr numClientInputs elements = .ok filter) (husable : filter.Usable) :
    ∃ indices, client.processResponse sha256 T build' filter.toProtobuf response = .ok indices ∧
      Finds plains elements indices := by
  obtain ⟨present, hpresent⟩ : ∃ present : Bytes → Bool, ∀ x, filter.check sha256 x = some (present x) := by
    refine ⟨fun x => (filter.check sha256 x).getD false, fun x => ?_⟩
    obtain ⟨answer, hanswer, -⟩ := BloomFilter.check_eq (husable.addable sha256 x)
    simp [hanswer]
  refine ⟨(plains.zipIdx.filter (fun p => present p.1)).map Prod.snd, ?_,
    @Finds.of_mem plains elements _ (fun x => present x = true) ?_ (fun i => ?_) fun x hx => ?_⟩
  · rw [BloomFilter.toProtobuf, PsiClient.processResponse_bloomFilter sha256 T build' client hplains]
    exact congrArg StatusOr.ofOption (BloomFilter.intersect_eq fun x _ => hpresent x)
  · refine (List.filter_sublist.map Prod.snd).nodup ?_
    rw [List.zipIdx_map_snd]
    exact List.nodup_range'
  · simp [List.mem_zipIdx_iff_getElem?]
  · exact Option.some.inj ((hpresent x).symm.trans (BloomFilter.check_of_mem hfilter husable hx))

variable {serverInputs clientInputs inputs : List Bytes} {ds : DataStructure} {setup : ServerSetup}
  {ptr permutation : Option (List Nat)}

/-- Whichever container the setup holds, the client's answer finds the common elements. -/
theorem PsiClient.processResponse_finds
    (hplains : response.encryptedElements.mapM client.ecCipher.decrypt = .ok plains)
    (helements : inputs.mapM server.ecCipher.encrypt = .ok elements)
    (hsetup : server.createSetupMessage sha256 S build fpr numClientInputs inputs ds ptr = .ok (setup, permutation))
    (husable : setup.Usable) :
    ∃ indices, client.processResponse sha256 T build' setup response = .ok indices ∧
      Finds plains elements indices := by
  cases ds with
  | raw =>
    rw [PsiServer.createSetupMessage_raw sha256 S build server fpr numClientInputs helements] at hsetup
    cases hsetup
    exact PsiClient.processResponse_raw_finds T build' hplains
  | gcs =>
    rw [PsiServer.createSetupMessage_gcs sha256 S build server fpr numClientInputs helements] at hsetup
    obtain ⟨gcs, hgcs, hsetup⟩ := StatusOr.bind_eq_ok.mp hsetup
    cases hsetup
    exact PsiClient.processResponse_gcs_finds T build' hplains hgcs husable
  | bloomFilter =>
    rw [PsiServer.createSetupMessage_bloomFilter sha256 S build server fpr numClientInputs helements] at hsetup
    obtain ⟨filter, hfilter, hsetup⟩ := StatusOr.bind_eq_ok.mp hsetup
    cases hsetup
    exact PsiClient.processResponse_bloomFilter_finds T build' hplains hfilter husable

theorem Finds.card_le (hcipher : Commutes server client serverInputs clientInputs) {indices : List Nat}
    (hperm : plains.Perm (clientInputs.map server.masked))
    (h : Finds plains (serverInputs.map server.masked) indices) :
    (clientInputs.toFinset ∩ serverInputs.toFinset).card ≤ indices.length := by
  have hsub : (clientInputs.toFinset ∩ serverInputs.toFinset).image server.masked ⊆
      indices.toFinset.image (fun i => plains.getD i []) := by
    intro y hy
    obtain ⟨x, hx, rfl⟩ := Finset.mem_image.mp hy
    rw [Finset.mem_inter, List.mem_toFinset, List.mem_toFinset] at hx
    obtain ⟨i, hi, hget⟩ := h.common _ (hperm.mem_iff.mpr (List.mem_map_of_mem hx.1)) (List.mem_map_of_mem hx.2)
    refine Finset.mem_image.mpr ⟨i, List.mem_toFinset.mpr hi, ?_⟩
    rw [List.getD_eq_getElem?_getD, hget, Option.getD_some]
  have hinjective : Set.InjOn server.masked (clientInputs.toFinset ∩ serverInputs.toFinset : Finset Bytes) := by
    intro x hx y hy heq
    rw [Finset.mem_coe, Finset.mem_inter, List.mem_toFinset, List.mem_toFinset] at hx hy
    exact hcipher.masked_injective x y (Or.inl hx.1) (Or.inl hy.1) heq
  calc (clientInputs.toFinset ∩ serverInputs.toFinset).card
      = ((clientInputs.toFinset ∩ serverInputs.toFinset).image server.masked).card :=
        (Finset.card_image_of_injOn hinjective).symm
    _ ≤ (indices.toFinset.image (fun i => plains.getD i [])).card := Finset.card_le_card hsub
    _ ≤ indices.toFinset.card := Finset.card_image_le
    _ ≤ indices.length := List.toFinset_card_le indices

theorem Finds.length_le {indices : List Nat} (h : Finds plains elements indices) :
    indices.length ≤ plains.length :=
  Positions.length_le ⟨h.nodup, h.inside⟩

/-- An exchange that goes through misses no common element, whatever its container and its
mode and however the container's hashes fall. -/
theorem exchange_misses_nothing {request : Request} (hcipher : Commutes server client serverInputs clientInputs)
    (hrun : exchange sha256 S build build' server client fpr numClientInputs serverInputs clientInputs ds =
      .ok (setup, request, response)) (husable : setup.Usable) :
    ∃ size, client.getIntersectionSize sha256 T build' setup response = .ok size ∧
      (clientInputs.toFinset ∩ serverInputs.toFinset).card ≤ size ∧ size ≤ clientInputs.length ∧
      (client.revealIntersection = true →
        ∃ indices, client.getIntersection sha256 T build' setup response = .ok indices ∧ indices.Nodup ∧
          indices.length = size ∧
          ∀ x ∈ clientInputs, x ∈ serverInputs → ∃ i ∈ indices, clientInputs[i]? = some x) := by
  obtain ⟨⟨setup', permutation⟩, hsetup, hrun⟩ := StatusOr.bind_eq_ok.mp hrun
  obtain ⟨request', hrequest, hrun⟩ := StatusOr.bind_eq_ok.mp hrun
  obtain ⟨response', hresponse, hrun⟩ := StatusOr.bind_eq_ok.mp hrun
  cases hrun
  obtain ⟨elements, helements⟩ := Traversal.exists_mapM_ok_iff.mpr hcipher.encrypt
  have hmode : client.revealIntersection = server.revealIntersection := by
    by_contra hmode
    obtain ⟨requested, -, -, hrequested, -⟩ := hcipher.traverse
    rw [PsiClient.createRequest_eq, hrequested] at hrequest
    cases hrequest
    rw [PsiServer.processRequest_mismatch S build hmode] at hresponse
    cases hresponse
  obtain ⟨request', response', plains, hrequest', hresponse', hplains, hperm, horder⟩ :=
    hcipher.response S build build' hmode
  cases hrequest.symm.trans hrequest'
  cases hresponse.symm.trans hresponse'
  obtain ⟨indices, hanswer, hfinds⟩ := PsiClient.processResponse_finds T build' hplains helements hsetup husable
  obtain rfl := PsiServer.eq_map_masked helements
  refine ⟨indices.length, ?_, hfinds.card_le hcipher hperm, ?_, fun hreveal => ?_⟩
  · rw [PsiClient.getIntersectionSize, hanswer]
    rfl
  · exact hfinds.length_le.trans_eq (hperm.length_eq.trans (List.length_map _))
  · rw [if_pos hreveal] at horder
    subst horder
    refine ⟨indices, ?_, hfinds.nodup, rfl, fun x hx hy => ?_⟩
    · rw [PsiClient.getIntersection, if_neg (not_not.mpr hreveal), hanswer]
    · obtain ⟨i, hi, hget⟩ := hfinds.common _ (List.mem_map_of_mem hx) (List.mem_map_of_mem hy)
      rw [List.getElem?_map] at hget
      obtain ⟨x', hx', hmasked⟩ := Option.map_eq_some_iff.mp hget
      obtain rfl := hcipher.masked_injective x' x (Or.inl (List.mem_of_getElem? hx')) (Or.inl hx) hmasked
      exact ⟨i, hi, hx'⟩

/-- A compressed set in which an element of the client's own has a hash of the server's. -/
theorem exchange_misses_nothing_collision :
    let sha256 : Bytes → Nat := fun x => (x.getLastD 0).toNat
    ∃ size, PsiClient.getIntersectionSize sha256 .insertion .sequential ⟨xorCipher 3, true⟩ (.gcs ⟨2, 32, [42]⟩)
        ⟨[[9], [37]]⟩ = .ok size ∧
      (([[15], [35]] : List Bytes).toFinset ∩ ([[15], [3]] : List Bytes).toFinset).card ≤ size ∧ size ≤ 2 := by
  intro sha256
  have hrun : exchange sha256 .insertion .sequential .sequential ⟨xorCipher 5, true⟩ ⟨xorCipher 3, true⟩
      (1 / 8 : ℚ) 2 [[15], [3]] [[15], [35]] .gcs =
      .ok (.gcs ⟨2, 32, [42]⟩, ⟨true, [[12], [32]]⟩, ⟨[[9], [37]]⟩) := by decide +kernel
  obtain ⟨size, hsize, hlow, hhigh, -⟩ := exchange_misses_nothing .insertion .sequential
    (xorCipher_commutes 5 3 true true [[15], [3]] [[15], [35]]) hrun ⟨by decide, by decide⟩
  exact ⟨size, hsize, hlow, hhigh⟩

end Containers

end PrivateSetIntersection
