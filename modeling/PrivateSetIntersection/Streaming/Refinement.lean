import PrivateSetIntersection.Protocol.Answers
import PrivateSetIntersection.Streaming.Serialized

/-! The streamed match against the library, which holds both messages whole. -/
namespace PrivateSetIntersection
open Library

namespace PsiMatch

section Pairs
variable {setup plains : List Bytes}

theorem mem_matchedPairs (hnodup : setup.Nodup) {p : Nat × Nat} :
    p ∈ matchedPairs setup plains ↔ ∃ x, plains[p.1]? = some x ∧ setup[p.2]? = some x := by
  obtain ⟨i, j⟩ := p
  rw [matchedPairs, List.mem_filterMap]
  constructor
  · rintro ⟨⟨x, k⟩, hx, hpair⟩
    dsimp only at hpair
    split at hpair <;> rename_i hmem
    · cases hpair
      exact ⟨x, List.mem_zipIdx_iff_getElem?.mp hx, List.getElem?_idxOf hmem⟩
    · cases hpair
  · rintro ⟨x, hi, hj⟩
    obtain ⟨hlt, rfl⟩ := List.getElem?_eq_some_iff.mp hj
    refine ⟨(setup[j], i), List.mem_zipIdx_iff_getElem?.mpr hi, ?_⟩
    rw [if_pos (List.getElem_mem hlt)]
    exact congrArg (fun k => some (i, k)) (List.get_idxOf hnodup ⟨j, hlt⟩)

theorem matchedPairs_ascending (setup plains : List Bytes) :
    (matchedPairs setup plains).Pairwise (fun p q => p.1 < q.1) := by
  rw [matchedPairs, List.pairwise_filterMap]
  refine (zipIdx_ascending plains).imp fun hab p hp q hq => ?_
  split at hp <;> cases hp
  split at hq <;> cases hq
  exact hab

/-- The streamed pairs are those of the association table. -/
theorem matchedPairs_perm (hnodup : setup.Nodup) :
    (matchedPairs setup plains).Perm (Raw.associationPairs plains setup) := by
  have hmatched : (matchedPairs setup plains).Nodup :=
    (matchedPairs_ascending setup plains).imp fun h heq => h.ne (congrArg Prod.fst heq)
  refine (List.perm_ext_iff_of_nodup hmatched Raw.nodup_associationPairs).mpr fun p => ?_
  rw [mem_matchedPairs hnodup, Raw.mem_associationPairs]

end Pairs

section Result
variable {setup plains : List Bytes}

theorem zip_matchResult :
    (matchResult true setup plains).responseIndices.zip (matchResult true setup plains).setupIndices =
      matchedPairs setup plains := by
  simp only [matchResult, if_true]
  rw [← List.unzip_fst, ← List.unzip_snd, List.zip_unzip]

theorem matchResult_ascending :
    (matchResult true setup plains).responseIndices.Pairwise (· < ·) := by
  simp only [matchResult, if_true]
  exact List.pairwise_map.mpr (matchedPairs_ascending setup plains)

end Result

section Messages
variable (build : Build) (decrypt : ElementOp) (reveal : Bool) (w : Surroundings)
  {setup response : List Bytes} {windows pieces : List Bytes}

/-- A run on two serialized messages, in any windows, succeeds exactly if the response
decrypts; its result is that of the elements. -/
theorem runMatch_messages (hascending : setup.Pairwise (· < ·))
    (hsetup : ∀ element ∈ setup, element.length ≤ kMaxElementBytes)
    (hresponse : ∀ element ∈ response, element.length ≤ kMaxElementBytes)
    (hcount : response.length ≤ kMaxElements)
    (hbytes : (RawInfo.serializeSetup ⟨setup⟩).length < 2 ^ 32)
    (hwindows : windows.flatten = RawInfo.serializeSetup ⟨setup⟩)
    (hpieces : pieces.flatten = Response.serialize ⟨response⟩) :
    match response.mapM decrypt with
    | .ok plains => runMatch build decrypt reveal w windows pieces =
        .finished (matchResult reveal setup plains)
    | .error _ => ∃ e, runMatch build decrypt reveal w windows pieces = .matchRefused e := by
  have houtcome : setupOutcome windows.flatten = .ok setup := by
    rw [hwindows]
    exact setupOutcome_eq_ok_iff.mpr ((setupGrammar_serializeSetup hsetup hbytes).mpr ⟨rfl, hascending⟩)
  have hrun := runMatch_outcome build decrypt reveal w windows pieces
  rw [houtcome, hpieces] at hrun
  dsimp only at hrun
  rw [responsePlains_serialize decrypt hresponse hcount] at hrun
  cases hplains : response.mapM decrypt with
  | ok plains =>
    rw [hplains] at hrun
    exact hrun
  | error e =>
    rw [hplains] at hrun
    exact hrun

end Messages

section Library
variable (sha256 : Bytes → Nat) (S : ComparisonSort) (build build' : Build) (client : PsiClient)
  (reveal : Bool) (w : Surroundings) {setup response windows pieces : List Bytes}

/-- A streamed match succeeds when the library does, and returns what the library returns. -/
theorem match_refines_library (hascending : setup.Pairwise (· < ·))
    (hsetup : ∀ element ∈ setup, element.length ≤ 33)
    (hresponse : ∀ element ∈ response, element.length ≤ 33)
    (hcount : response.length < 2 ^ 32 - 1)
    (hbytes : (RawInfo.serializeSetup ⟨setup⟩).length < 2 ^ 32)
    (hwindows : windows.flatten = RawInfo.serializeSetup ⟨setup⟩)
    (hpieces : pieces.flatten = Response.serialize ⟨response⟩) :
    let outcome := runMatch build client.ecCipher.decrypt reveal w windows pieces
    let decrypts := ∀ element ∈ response, ∃ plain, client.ecCipher.decrypt element = .ok plain
    let size := client.getIntersectionSize sha256 S build' (.raw ⟨setup⟩) ⟨response⟩
    let table := client.getAssociationTable S build' (.raw ⟨setup⟩) ⟨response⟩
    ((∃ result, outcome = .finished result) ↔ decrypts) ∧ (size.isOk ↔ decrypts) ∧
      (client.revealIntersection → (table.isOk ↔ decrypts)) ∧
      ∀ result, outcome = .finished result →
        result.decryptedCount = response.length ∧ size = .ok result.intersectionSize ∧
        if reveal then
          result.responseIndices.length = result.setupIndices.length ∧
          result.responseIndices.Pairwise (· < ·) ∧
          (client.revealIntersection → ∃ pairs, table = .ok pairs ∧
            pairs.1.length = pairs.2.length ∧
            (result.responseIndices.zip result.setupIndices).Perm (pairs.1.zip pairs.2) ∧
            (pairs.1.zip pairs.2).Nodup)
        else result.responseIndices = [] ∧ result.setupIndices = [] := by
  intro outcome decrypts size table
  have hrun := runMatch_messages build client.ecCipher.decrypt reveal w hascending hsetup hresponse
    (show response.length ≤ 2 ^ 32 - 1 by omega) hbytes hwindows hpieces
  have hdecrypts : decrypts ↔ ∃ plains, response.mapM client.ecCipher.decrypt = .ok plains :=
    Traversal.exists_mapM_ok_iff.symm
  cases hplains : response.mapM client.ecCipher.decrypt with
  | error e =>
    rw [hplains] at hrun
    obtain ⟨e', he'⟩ := hrun
    have hfails : ¬ decrypts := by
      rw [hdecrypts, hplains]
      exact fun ⟨_, h⟩ => nomatch h
    have hsize : size = .error e := PsiClient.getIntersectionSize_error sha256 S build' client hplains _
    refine ⟨iff_of_false (fun ⟨_, h⟩ => ?_) hfails, iff_of_false ?_ hfails, fun hreveal => ?_, fun _ h => ?_⟩
    · exact nomatch he'.symm.trans h
    · rw [hsize]
      exact nofun
    · have htable : table = .error e := PsiClient.getAssociationTable_error S build' client hreveal hplains _
      refine iff_of_false ?_ hfails
      rw [htable]
      exact nofun
    · exact nomatch he'.symm.trans h
  | ok plains =>
    rw [hplains] at hrun
    have hnodup : setup.Nodup := hascending.imp ne_of_lt
    have hholds : decrypts := hdecrypts.mpr ⟨plains, hplains⟩
    have hsize : size = .ok (setup.countP (fun element => element ∈ plains)) :=
      PsiClient.getIntersectionSize_raw sha256 S build' client hplains hascending
    have htable (hreveal : client.revealIntersection) :=
      PsiClient.getAssociationTable_raw S build' client hreveal hplains
        (hascending.imp le_of_lt)
    refine ⟨iff_of_true ⟨_, hrun⟩ hholds, iff_of_true ?_ hholds, fun hreveal => iff_of_true ?_ hholds, ?_⟩
    · rw [hsize, StatusOr.isOk_ok]
    · obtain ⟨pairs, hpairs, -⟩ := htable hreveal
      rw [show table = .ok pairs from hpairs, StatusOr.isOk_ok]
    · intro result hresult
      obtain rfl : matchResult reveal setup plains = result :=
        Outcome.finished.inj (hrun.symm.trans hresult)
      refine ⟨Traversal.length_of_mapM_ok hplains, hsize, ?_⟩
      cases reveal with
      | false => exact ⟨rfl, rfl⟩
      | true =>
        refine ⟨by simp [matchResult], matchResult_ascending, fun hreveal => ?_⟩
        obtain ⟨pairs, hpairs, hlength, hperm⟩ := htable hreveal
        refine ⟨pairs, hpairs, hlength, ?_, hperm.nodup_iff.mpr Raw.nodup_associationPairs⟩
        rw [zip_matchResult]
        exact (matchedPairs_perm hnodup).trans hperm.symm

/-- A repeated response element, both messages cut inside their elements. -/
theorem match_refines_library_repeated :
    ∃ result, runMatch .sequential .ok true {}
      [[0x0A, 0x06], [], [0x0A, 0x01, 0x01, 0x0A], [0x01, 0x02]]
      [[0x0A], [0x01, 0x02, 0x0A, 0x01], [0x02]] = .finished result :=
  (match_refines_library (fun _ => 0) .insertion .sequential .sequential ⟨⟨.ok, .ok, .ok⟩, true⟩ true {}
    (show ([[1], [2]] : List Bytes).Pairwise (· < ·) by decide)
    (by decide) (show ∀ element ∈ ([[2], [2]] : List Bytes), element.length ≤ 33 by decide)
    (by decide) (by decide +kernel) (by decide +kernel) (by decide +kernel)).1.mpr
    fun element _ => ⟨element, rfl⟩

end Library

end PsiMatch
end PrivateSetIntersection
