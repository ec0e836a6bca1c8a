import PrivateSetIntersection.Protocol.Exchange
import PrivateSetIntersection.Streaming.Refinement

/-! An exchange in which the client never holds a message whole: it is given the bytes of the
setup and of the response in windows. -/
namespace PrivateSetIntersection
open Library

namespace PsiMatch

section Pairs
variable (S : ComparisonSort) {server : PsiServer} {client : PsiClient} {serverInputs clientInputs : List Bytes}

/-- The recorded pairs, led through the permutation, are the rows of equal inputs. -/
theorem rows_of_matchedPairs (hcipher : Commutes server client serverInputs clientInputs)
    (hdistinct : (serverInputs.map server.masked).Nodup) :
    let elements := serverInputs.map server.masked
    let result := matchResult true (sortedRaw S elements).encrypted (clientInputs.map server.masked)
    ∃ rows, result.setupIndices.mapM (fun k => (sortingPermutation S elements)[k]?) = some rows ∧
      result.responseIndices.length = result.setupIndices.length ∧ (result.responseIndices.zip rows).Nodup ∧
      ∀ i j, (i, j) ∈ result.responseIndices.zip rows ↔
        ∃ x, clientInputs[i]? = some x ∧ serverInputs[j]? = some x := by
  intro elements result
  have hnodup : (sortedRaw S elements).encrypted.Nodup := (sortedRaw_perm S elements).nodup_iff.mpr hdistinct
  have hlength : result.responseIndices.length = result.setupIndices.length := by
    simp only [result, matchResult, if_true, List.length_map]
  have htable : (result.responseIndices.zip result.setupIndices).Perm
      (Raw.associationPairs (clientInputs.map server.masked) (sortedRaw S elements).encrypted) := by
    rw [zip_matchResult]
    exact matchedPairs_perm hnodup
  obtain ⟨rows, hrows, hpairs, hmem⟩ := rows_of_table S hlength htable
  exact ⟨rows, hrows, hlength, hpairs, fun i j => (hmem i j).trans (hcipher.rows_iff i j)⟩

theorem masked_nodup_iff (hcipher : Commutes server client serverInputs clientInputs) :
    (serverInputs.map server.masked).Nodup ↔ serverInputs.Nodup := by
  refine ⟨List.Nodup.of_map server.masked, fun h => h.map_on fun x hx y hy hmasked => ?_⟩
  exact hcipher.masked_injective x y (Or.inr hx) (Or.inr hy) hmasked

/-- Of the masked setup, as many are in the response as inputs of the server's are the client's. -/
theorem countP_masked (hcipher : Commutes server client serverInputs clientInputs) {plains : List Bytes}
    (hplains : plains.Perm (clientInputs.map server.masked)) :
    (sortedRaw S (serverInputs.map server.masked)).encrypted.countP (fun element => element ∈ plains) =
      serverInputs.countP (fun x => x ∈ clientInputs) := by
  rw [(sortedRaw_perm S _).countP_eq, List.countP_map]
  apply List.countP_congr
  intro x hx
  rw [Function.comp_apply, decide_eq_true_iff, decide_eq_true_iff, hplains.mem_iff, List.mem_map]
  constructor
  · rintro ⟨x', hx', hmasked⟩
    rwa [← hcipher.masked_injective x' x (Or.inl hx') (Or.inr hx) hmasked]
  · intro hmem
    exact ⟨x, hmem, rfl⟩

end Pairs

section Bytes
variable (S : ComparisonSort) (build build' : Build) {server : PsiServer} {client : PsiClient}
  {serverInputs clientInputs : List Bytes}

/-- A server's setup is accepted exactly if its inputs are distinct, and is what was sent. -/
theorem setupOutcome_masked (hcipher : Commutes server client serverInputs clientInputs)
    (hpoints : server.ecCipher.Compressed) :
    let setup := (sortedRaw S (serverInputs.map server.masked)).encrypted
    (RawInfo.serializeSetup ⟨setup⟩).length < 2 ^ 32 →
    match setupOutcome (RawInfo.serializeSetup ⟨setup⟩) with
    | .ok es => serverInputs.Nodup ∧ es = setup
    | .error _ => ¬ serverInputs.Nodup := by
  intro setup hbytes
  obtain ⟨elements, helements⟩ := Traversal.exists_mapM_ok_iff.mpr hcipher.encrypt
  have hfits : ∀ element ∈ setup, element.length ≤ 33 := by
    intro element helement
    have hmem := (sortedRaw_perm S (serverInputs.map server.masked)).mem_iff.mp helement
    rw [← PsiServer.eq_map_masked helements] at hmem
    obtain ⟨i, hi⟩ := List.mem_iff_getElem?.mp hmem
    obtain ⟨x, -, hx⟩ := (Traversal.getElem?_of_mapM_ok helements i element).mp hi
    exact hpoints.encrypt x element hx
  have hgrammar (es : List Bytes) := @setupGrammar_serializeSetup _ es hfits hbytes
  have hdistinct := (sortedRaw_strict_iff S (serverInputs.map server.masked)).trans (masked_nodup_iff hcipher)
  cases houtcome : setupOutcome (RawInfo.serializeSetup ⟨setup⟩) with
  | ok es =>
    obtain ⟨hsame, hascending⟩ := (hgrammar es).mp (setupOutcome_eq_ok_iff.mp houtcome)
    exact ⟨hdistinct.mp hascending, hsame⟩
  | error e =>
    intro hnodup
    rw [setupOutcome_eq_ok_iff.mpr ((hgrammar setup).mpr ⟨rfl, hdistinct.mpr hnodup⟩)] at houtcome
    cases houtcome

/-- And what its response decrypts to makes the result. -/
theorem responsePlains_exchange (hcipher : Commutes server client serverInputs clientInputs)
    (hmode : client.revealIntersection = server.revealIntersection) (hpoints : server.ecCipher.Compressed)
    (hcount : clientInputs.length < 2 ^ 32 - 1) :
    ∃ request response plains, client.createRequest build' clientInputs = .ok request ∧
      server.processRequest S build request = .ok response ∧
      responsePlains client.ecCipher.decrypt response.serialize = some plains ∧
      let result := matchResult client.revealIntersection
        (sortedRaw S (serverInputs.map server.masked)).encrypted plains
      result.decryptedCount = clientInputs.length ∧
      result.intersectionSize = serverInputs.countP (fun x => x ∈ clientInputs) ∧
      (serverInputs.Nodup →
        if client.revealIntersection then
          ∃ rows, result.setupIndices.mapM (fun k => (sortingPermutation S (serverInputs.map server.masked))[k]?) =
              some rows ∧
            result.responseIndices.length = result.setupIndices.length ∧
            (result.responseIndices.zip rows).Nodup ∧
            ∀ i j, (i, j) ∈ result.responseIndices.zip rows ↔
              ∃ x, clientInputs[i]? = some x ∧ serverInputs[j]? = some x
        else result.responseIndices = [] ∧ result.setupIndices = []) := by
  obtain ⟨request, response, plains, hrequest, hresponse, hplains, hperm, horder⟩ :=
    hcipher.response S build build' hmode
  have hlength : plains.length = clientInputs.length := by
    rw [hperm.length_eq, List.length_map]
  have hresponseFits : ∀ element ∈ response.encryptedElements, element.length ≤ 33 := by
    intro element helement
    obtain ⟨x, hx⟩ := PsiServer.mem_response S build hresponse element helement
    exact hpoints.reEncrypt x element hx
  have hfew : response.encryptedElements.length ≤ 2 ^ 32 - 1 := by
    rw [← Traversal.length_of_mapM_ok hplains, hlength]
    exact hcount.le
  refine ⟨request, response, plains, hrequest, hresponse, ?_, hlength, countP_masked S hcipher hperm, fun hnodup => ?_⟩
  · have hread := responsePlains_serialize client.ecCipher.decrypt hresponseFits hfew
    rw [hplains] at hread
    exact hread
  · split <;> rename_i hreveal
    · rw [if_pos hreveal] at horder
      subst horder
      rw [hreveal]
      exact rows_of_matchedPairs S hcipher ((masked_nodup_iff hcipher).mpr hnodup)
    · simp only [matchResult, if_neg hreveal, and_self]

end Bytes

section Run
variable {D : Type} [DoubleArithmetic D] (sha256 : Bytes → Nat) (S : ComparisonSort) (build build' build'' : Build)
  (fpr : D) (numClientInputs : Int) {server : PsiServer} {client : PsiClient} {serverInputs clientInputs : List Bytes}

/-- An exchange of one mode, streamed. However the two messages are cut into windows, the
match of a server's distinct inputs ends with the number of them that are the client's, and
with the rows of equal inputs if the intersection is revealed; a setup with a repeat is refused. -/
theorem streamed_exchange_end_to_end (hcipher : Commutes server client serverInputs clientInputs)
    (hmode : client.revealIntersection = server.revealIntersection) (hpoints : server.ecCipher.Compressed)
    (hcount : clientInputs.length < 2 ^ 32 - 1) (p₀ : List Nat) :
    ∃ info p request response,
      server.createSetupMessage sha256 S build fpr numClientInputs serverInputs .raw (some p₀) =
        .ok (.raw info, some p) ∧
      client.createRequest build' clientInputs = .ok request ∧
      server.processRequest S build request = .ok response ∧
      (info.serializeSetup.length < 2 ^ 32 → ∀ (w : Surroundings) (windows pieces : List Bytes),
        windows.flatten = info.serializeSetup → pieces.flatten = response.serialize →
        let outcome := runMatch build'' client.ecCipher.decrypt client.revealIntersection w windows pieces
        if serverInputs.Nodup then
          ∃ result, outcome = .finished result ∧ result.decryptedCount = clientInputs.length ∧
            result.intersectionSize = serverInputs.countP (fun x => x ∈ clientInputs) ∧
            if client.revealIntersection then
              ∃ rows, result.setupIndices.mapM (fun k => p[k]?) = some rows ∧
                result.responseIndices.length = result.setupIndices.length ∧
                (result.responseIndices.zip rows).Nodup ∧
                ∀ i j, (i, j) ∈ result.responseIndices.zip rows ↔
                  ∃ x, clientInputs[i]? = some x ∧ serverInputs[j]? = some x
            else result.responseIndices = [] ∧ result.setupIndices = []
        else ∃ e, outcome = .setupRefused e) := by
  obtain ⟨elements, helements⟩ := Traversal.exists_mapM_ok_iff.mpr hcipher.encrypt
  have hmessage := PsiServer.createSetupMessage_raw sha256 S build server fpr numClientInputs helements (some p₀)
  obtain rfl := PsiServer.eq_map_masked helements
  obtain ⟨request, response, plains, hrequest, hresponse, hplains, hdecrypted, hsize, hrows⟩ :=
    responsePlains_exchange S build build' hcipher hmode hpoints hcount
  refine ⟨_, _, request, response, hmessage, hrequest, hresponse, ?_⟩
  intro hbytes w windows pieces hwindows hpieces outcome
  have hsetup := setupOutcome_masked S hcipher hpoints hbytes
  have houtcome := runMatch_outcome build'' client.ecCipher.decrypt client.revealIntersection w windows pieces
  rw [hwindows, hpieces, hplains] at houtcome
  cases hread : setupOutcome (RawInfo.serializeSetup ⟨(sortedRaw S (serverInputs.map server.masked)).encrypted⟩) with
  | ok es =>
    rw [hread] at hsetup houtcome
    obtain ⟨hnodup, rfl⟩ := hsetup
    rw [if_pos hnodup]
    exact ⟨_, houtcome, hdecrypted, hsize, hrows hnodup⟩
  | error e =>
    rw [hread] at hsetup houtcome
    rw [if_neg hsetup]
    exact ⟨e, houtcome⟩

/-- An input of the server's that is the client's twice. -/
theorem streamed_exchange_end_to_end_repeated :
    ∃ info p request response,
      PsiServer.createSetupMessage (fun _ => 0) .insertion .sequential ⟨pointCipher 5, true⟩ (1 / 2 : ℚ) 1
        [[2], [1]] .raw (some []) = .ok (.raw info, some p) ∧
      PsiClient.createRequest .sequential ⟨pointCipher 3, true⟩ [[2], [3], [2]] = .ok request ∧
      PsiServer.processRequest .insertion .sequential ⟨pointCipher 5, true⟩ request = .ok response ∧
      (info.serializeSetup.length < 2 ^ 32 → ∀ windows pieces : List Bytes,
        windows.flatten = info.serializeSetup → pieces.flatten = response.serialize →
        ∃ result, runMatch .sequential (pointCipher 3).decrypt true {} windows pieces = .finished result ∧
          result.intersectionSize = 1) := by
  obtain ⟨info, p, request, response, hsetup, hrequest, hresponse, hstreamed⟩ :=
    streamed_exchange_end_to_end (fun _ => 0) .insertion .sequential .sequential .sequential (1 / 2 : ℚ) 1
      (@pointCipher_commutes 5 3 true [[2], [1]] [[2], [3], [2]] (by decide) (by decide)) rfl
      (pointCipher_compressed 5) (by decide) []
  refine ⟨info, p, request, response, hsetup, hrequest, hresponse, fun hbytes windows pieces hwindows hpieces => ?_⟩
  obtain ⟨result, hrun, -, hsize, -⟩ := hstreamed hbytes {} windows pieces hwindows hpieces
  exact ⟨result, hrun, hsize⟩

end Run

end PsiMatch
end PrivateSetIntersection
