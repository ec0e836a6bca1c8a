import PrivateSetIntersection.Protocol.Messages
import PrivateSetIntersection.Streaming.Refinement

/-! The streamed parser against libprotobuf's, which is a parameter: a match on bytes is the
library on the messages that the bytes parse to. -/
namespace PrivateSetIntersection
open Library

namespace PsiMatch

section Run
variable (build : Build) (decrypt : ElementOp) (reveal : Bool) (w : Surroundings)
  {windows pieces : List Bytes}

theorem responsePlains_eq_some {bytes : Bytes} {plains : List Bytes}
    (h : responsePlains decrypt bytes = some plains) :
    ∃ entries, Entries bytes entries ∧ entries.length ≤ kMaxElements ∧
      entries.mapM decrypt = .ok plains := by
  rw [responsePlains] at h
  split at h
  · rename_i entries hrun
    obtain ⟨elements, hentries, htaken⟩ := run_readByte_iff.mp hrun
    obtain ⟨rfl, hcount⟩ := run_takeEntry_iff.mp htaken
    refine ⟨entries, hentries, hcount, ?_⟩
    cases hplains : entries.mapM decrypt with
    | ok decrypted =>
      rw [hplains] at h
      exact congrArg Except.ok (Option.some.inj h)
    | error e =>
      rw [hplains] at h
      cases h
  · cases h

theorem responsePlains_of_entries {bytes : Bytes} {entries plains : List Bytes} (h : Entries bytes entries)
    (hcount : entries.length ≤ kMaxElements) (hplains : entries.mapM decrypt = .ok plains) :
    responsePlains decrypt bytes = some plains := by
  have hread : Automaton.run (readByte takeEntry) (.tag, []) bytes = .ok (.tag, entries) :=
    run_readByte_iff.mpr ⟨entries, h, run_takeEntry_iff.mpr ⟨rfl, hcount⟩⟩
  rw [responsePlains, hread]
  dsimp only
  rw [hplains]
  rfl

/-- A run ends with a result exactly on a whole setup and whole entries that decrypt, and
the result is that of their elements. -/
theorem runMatch_finished_iff {result : PsiMatchResult} :
    runMatch build decrypt reveal w windows pieces = .finished result ↔
      ∃ setup entries plains, SetupGrammar windows.flatten setup ∧ Entries pieces.flatten entries ∧
        entries.length ≤ kMaxElements ∧ entries.mapM decrypt = .ok plains ∧
        result = matchResult reveal setup plains := by
  have hrun := runMatch_outcome build decrypt reveal w windows pieces
  constructor
  · intro h
    rw [h] at hrun
    cases houtcome : setupOutcome windows.flatten with
    | error e =>
      rw [houtcome] at hrun
      cases hrun
    | ok setup =>
      rw [houtcome] at hrun
      dsimp only at hrun
      cases hresponse : responsePlains decrypt pieces.flatten with
      | none =>
        rw [hresponse] at hrun
        obtain ⟨e, he⟩ := hrun
        cases he
      | some plains =>
        rw [hresponse] at hrun
        obtain ⟨entries, hentries, hcount, hplains⟩ := responsePlains_eq_some decrypt hresponse
        exact ⟨setup, entries, plains, setupOutcome_eq_ok_iff.mp houtcome, hentries, hcount, hplains,
          Outcome.finished.inj hrun⟩
  · rintro ⟨setup, entries, plains, hsetup, hentries, hcount, hplains, rfl⟩
    rw [setupOutcome_eq_ok_iff.mpr hsetup,
      responsePlains_of_entries decrypt hentries hcount hplains] at hrun
    exact hrun

end Run

section Parsed
variable (parseSetup : Bytes → Option ServerSetup) (parseResponse : Bytes → Option Response)

/-- libprotobuf takes bytes that the streamed parser takes, in however many bytes the lengths
are written, for the elements in them. -/
structure Parses (limit : Nat) : Prop where
  setup : ∀ bytes elements, bytes.length < limit → SetupGrammar bytes elements →
    parseSetup bytes = some (.raw ⟨elements⟩)
  response : ∀ bytes elements, bytes.length < limit → Entries bytes elements →
    parseResponse bytes = some ⟨elements⟩

variable {parseSetup parseResponse} {limit : Nat} (hparses : Parses parseSetup parseResponse limit)
  (sha256 : Bytes → Nat) (S : ComparisonSort) (build build' : Build) (client : PsiClient) (w : Surroundings)
  {windows pieces : List Bytes}
include hparses

/-- A client's match that finishes on two byte strings, cut anywhere, gives what the client
gives for the messages the byte strings parse to. -/
theorem match_agrees_with_parsed {result : PsiMatchResult} (hsetup : windows.flatten.length < limit)
    (hresponse : pieces.flatten.length < limit)
    (h : runMatch build client.ecCipher.decrypt client.revealIntersection w windows pieces =
      .finished result) :
    ∃ setup response, parseSetup windows.flatten = some setup ∧ parseResponse pieces.flatten = some response ∧
      result.decryptedCount = response.encryptedElements.length ∧
      client.getIntersectionSize sha256 S build' setup response = .ok result.intersectionSize ∧
      if client.revealIntersection then
        result.responseIndices.length = result.setupIndices.length ∧
        ∃ pairs, client.getAssociationTable S build' setup response = .ok pairs ∧
          pairs.1.length = pairs.2.length ∧
          (result.responseIndices.zip result.setupIndices).Perm (pairs.1.zip pairs.2)
      else result.responseIndices = [] ∧ result.setupIndices = [] := by
  obtain ⟨setup, entries, plains, hgrammar, hentries, -, hplains, rfl⟩ :=
    (runMatch_finished_iff build _ _ w).mp h
  have hascending := hgrammar.ascending
  have hplains' : (Response.mk entries).encryptedElements.mapM client.ecCipher.decrypt = .ok plains := hplains
  refine ⟨.raw ⟨setup⟩, ⟨entries⟩, hparses.setup _ _ hsetup hgrammar, hparses.response _ _ hresponse hentries,
    Traversal.length_of_mapM_ok hplains,
    PsiClient.getIntersectionSize_raw sha256 S build' client hplains' hascending, ?_⟩
  split <;> rename_i hreveal
  · obtain ⟨pairs, hpairs, hlength, hperm⟩ := PsiClient.getAssociationTable_raw S build' client hreveal
      hplains' (hascending.imp le_of_lt)
    rw [hreveal]
    refine ⟨by simp [matchResult], pairs, hpairs, hlength, ?_⟩
    rw [zip_matchResult]
    exact (matchedPairs_perm (hascending.imp ne_of_lt)).trans hperm.symm
  · rw [Bool.not_eq_true] at hreveal
    rw [hreveal]
    exact ⟨rfl, rfl⟩

omit hparses in
/-- The streamed parser itself, as a parser of whole messages. -/
theorem parses_streamed :
    Parses (fun bytes => (setupOutcome bytes).toOption.map fun elements => .raw ⟨elements⟩)
      (fun bytes => (responsePlains .ok bytes).map Response.mk) sizeLimit where
  setup bytes elements _ h := by
    rw [setupOutcome_eq_ok_iff.mpr h]
    rfl
  response bytes elements hlength h := by
    have hcount : elements.length ≤ kMaxElements := by
      have hle := h.length_le
      rw [sizeLimit] at hlength
      rw [kMaxElements]
      omega
    rw [responsePlains_of_entries .ok h hcount (Traversal.mapM_eq_ok_iff.mpr (List.forall₂_same.mpr fun _ _ => rfl))]
    rfl

omit hparses in
/-- Lengths written in more bytes than they need, which serializing never writes. -/
theorem match_agrees_with_parsed_long_varints :
    let client : PsiClient := ⟨⟨.ok, .ok, .ok⟩, true⟩
    ∃ setup response,
      (setupOutcome [0x0A, 0x83, 0x00, 0x0A, 0x01, 0x07]).toOption.map
        (fun elements => ServerSetup.raw ⟨elements⟩) = some setup ∧
      (responsePlains .ok [0x0A, 0x81, 0x00, 0x07]).map Response.mk = some response ∧
      1 = response.encryptedElements.length ∧
      client.getIntersectionSize (fun _ => 0) .insertion .sequential setup response = .ok 1 ∧
      ∃ pairs, client.getAssociationTable .insertion .sequential setup response = .ok pairs ∧
        [(0, 0)].Perm (pairs.1.zip pairs.2) := by
  have hsetup : SetupGrammar [0x0A, 0x83, 0x00, 0x0A, 0x01, 0x07] [[7]] :=
    @SetupGrammar.intro [0x83, 0x00] [0x0A, 0x01, 0x07] [[7]] (by constructor <;> simp [base128])
      (@Entries.cons [0x0A, 0x01, 0x07] [] [7] []
        (@Entry.intro [0x01] [7] (by constructor <;> simp [base128]) (by decide)) .nil) (by decide)
  have hresponse : Entries [0x0A, 0x81, 0x00, 0x07] [[7]] :=
    @Entries.cons [0x0A, 0x81, 0x00, 0x07] [] [7] []
      (@Entry.intro [0x81, 0x00] [7] (by constructor <;> simp [base128]) (by decide)) .nil
  have hfinished : runMatch .sequential .ok true {} [[0x0A, 0x83], [0x00, 0x0A, 0x01, 0x07]]
      [[0x0A, 0x81, 0x00], [0x07]] = .finished ⟨1, 1, [0], [0]⟩ :=
    (runMatch_finished_iff _ _ _ _).mpr ⟨[[7]], [[7]], [[7]], hsetup, hresponse, by decide, rfl, by decide +kernel⟩
  obtain ⟨setup, response, hsetup, hresponse, hcount, hsize, -, pairs, hpairs, -, hperm⟩ :=
    match_agrees_with_parsed parses_streamed (fun _ => 0) .insertion .sequential .sequential
      ⟨⟨.ok, .ok, .ok⟩, true⟩ {} (by decide) (by decide) hfinished
  exact ⟨setup, response, hsetup, hresponse, hcount, hsize, pairs, hpairs, hperm⟩

end Parsed

end PsiMatch
end PrivateSetIntersection
