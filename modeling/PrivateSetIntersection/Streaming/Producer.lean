import PrivateSetIntersection.Streaming.Refinement

/-! The setup message the server writes, as the streamed match reads it. -/
namespace PrivateSetIntersection
open Library

namespace PsiMatch
variable {D : Type} [DoubleArithmetic D] (sha256 : Bytes → Nat) (S : ComparisonSort)
  (build build' : Build) (server : PsiServer) (fpr : D) (numClientInputs : Int)
  (decrypt : ElementOp) (reveal : Bool) (w : Surroundings)

section Produced
variable (encrypt : Bytes → Bytes) {inputs : List Bytes}

def producedSetup (encrypt : Bytes → Bytes) (inputs : List Bytes) : List Bytes :=
  (sortedRaw S (inputs.map encrypt)).encrypted

theorem producedSetup_getElem? {k : Nat} (hk : k < inputs.length) :
    ∃ row input, (sortingPermutation S (inputs.map encrypt))[k]? = some row ∧
      inputs[row]? = some input ∧ (producedSetup S encrypt inputs)[k]? = some (encrypt input) := by
  have hlength : k < (inputs.map encrypt).length := by rwa [List.length_map]
  have hperm := sortingPermutation_perm S (inputs.map encrypt)
  have hrow : origin (sortingPermutation S (inputs.map encrypt)) k < inputs.length := by
    rw [← List.length_map (f := encrypt)]
    exact origin_lt hperm hlength
  refine ⟨_, _, getElem?_origin hperm hlength, List.getElem?_eq_getElem hrow, ?_⟩
  rw [producedSetup, sortedRaw_getElem? S _ hlength, List.getElem?_map, List.getElem?_eq_getElem hrow,
    Option.map_some]

theorem length_producedSetup (inputs : List Bytes) :
    (producedSetup S encrypt inputs).length = inputs.length := by
  rw [producedSetup, (sortedRaw_perm S _).length_eq, List.length_map]

/-- The streamed parser takes the produced bytes exactly if the encryptions are distinct. -/
theorem setupGrammar_producedSetup (hfits : ∀ input ∈ inputs, (encrypt input).length ≤ 33)
    (hbytes : (RawInfo.serializeSetup ⟨producedSetup S encrypt inputs⟩).length < 2 ^ 32) (es : List Bytes) :
    SetupGrammar (RawInfo.serializeSetup ⟨producedSetup S encrypt inputs⟩) es ↔
      es = producedSetup S encrypt inputs ∧ (inputs.map encrypt).Nodup := by
  have hfits' : ∀ element ∈ producedSetup S encrypt inputs, element.length ≤ kMaxElementBytes := by
    intro element hmem
    have hperm := sortedRaw_perm S (inputs.map encrypt)
    obtain ⟨input, hinput, rfl⟩ := List.mem_map.mp (hperm.mem_iff.mp hmem)
    exact hfits input hinput
  rw [setupGrammar_serializeSetup hfits' hbytes, producedSetup, sortedRaw_strict_iff]

variable {encrypt}

/-- Of a finished run, every pair of indices leads to equal elements of the two sides. -/
theorem runMatch_pairs {windows pieces setup : List Bytes} {result : PsiMatchResult}
    (hsetup : setupOutcome windows.flatten = .ok setup)
    (hrun : runMatch build' decrypt reveal w windows pieces = .finished result) :
    ∃ plains, responsePlains decrypt pieces.flatten = some plains ∧
      ∀ i j, (i, j) ∈ result.responseIndices.zip result.setupIndices →
        ∃ x, plains[i]? = some x ∧ setup[j]? = some x := by
  have hnodup : setup.Nodup := (setupOutcome_eq_ok_iff.mp hsetup).ascending.imp ne_of_lt
  have houtcome := runMatch_outcome build' decrypt reveal w windows pieces
  rw [hsetup] at houtcome
  dsimp only at houtcome
  cases hplains : responsePlains decrypt pieces.flatten with
  | none =>
    rw [hplains] at houtcome
    obtain ⟨e, he⟩ := houtcome
    exact nomatch he.symm.trans hrun
  | some plains =>
    rw [hplains] at houtcome
    obtain rfl : matchResult reveal setup plains = result :=
      Outcome.finished.inj (houtcome.symm.trans hrun)
    refine ⟨plains, rfl, fun i j hpair => ?_⟩
    cases reveal with
    | false => exact absurd hpair List.not_mem_nil
    | true =>
      rw [zip_matchResult] at hpair
      exact (mem_matchedPairs hnodup).mp hpair

/-- A produced setup, in any windows, is accepted exactly if the encryptions are distinct;
then its elements are stored in the order of the permutation, and a reported setup index
leads through it to the server's row. -/
theorem produced_setup_accepted
    (hencrypt : ∀ input ∈ inputs, server.ecCipher.encrypt input = .ok (encrypt input))
    (hfits : ∀ input ∈ inputs, (encrypt input).length ≤ 33) (p₀ : List Nat) :
    ∃ info p, server.createSetupMessage sha256 S build fpr numClientInputs inputs .raw (some p₀) =
        .ok (.raw info, some p) ∧ p.Perm (List.range inputs.length) ∧
      (info.serializeSetup.length < 2 ^ 32 →
        ∀ windows : List Bytes, windows.flatten = info.serializeSetup →
          let called := calls build' decrypt ({ revealIntersection := reveal }, w) (setupCalls windows)
          ((∀ status ∈ called.1, status = .ok) ↔ (inputs.map encrypt).Nodup) ∧
          ((∀ status ∈ called.1, status = .ok) →
            called.2.1.setupSize = inputs.length ∧
            ∀ k < inputs.length, ∃ row input, p[k]? = some row ∧ inputs[row]? = some input ∧
              called.2.1.setupElement k = encrypt input) ∧
          ∀ pieces result, runMatch build' decrypt reveal w windows pieces = .finished result →
            ∃ plains, responsePlains decrypt pieces.flatten = some plains ∧
              ∀ i j, (i, j) ∈ result.responseIndices.zip result.setupIndices →
                ∃ row input, p[j]? = some row ∧ inputs[row]? = some input ∧
                  plains[i]? = some (encrypt input)) := by
  have hencrypted := Traversal.mapM_of_total hencrypt
  have hmessage := PsiServer.createSetupMessage_raw sha256 S build server fpr numClientInputs hencrypted (some p₀)
  refine ⟨_, _, hmessage, by simpa using sortingPermutation_perm S (inputs.map encrypt), ?_⟩
  intro hbytes windows hwindows called
  have hgrammar := setupGrammar_producedSetup S encrypt hfits hbytes
  have hcalled := setupCalls_outcome build' decrypt reveal w windows
  rw [← producedSetup] at hwindows
  by_cases hdistinct : (inputs.map encrypt).Nodup
  · have hsetup : setupOutcome windows.flatten = .ok (producedSetup S encrypt inputs) := by
      rw [hwindows]
      exact setupOutcome_eq_ok_iff.mpr ((hgrammar _).mpr ⟨rfl, hdistinct⟩)
    rw [hsetup] at hcalled
    obtain ⟨hall, hsealed⟩ := hcalled
    have hcount := length_producedSetup S encrypt inputs
    refine ⟨iff_of_true hall hdistinct, fun _ => ⟨hsealed.stores.count.trans hcount, fun k hk => ?_⟩, ?_⟩
    · obtain ⟨row, input, hp, hrow, hget⟩ := producedSetup_getElem? S encrypt hk
      obtain ⟨hlt, hget⟩ := List.getElem?_eq_some_iff.mp hget
      exact ⟨row, input, hp, hrow, (hsealed.stores.setupElement hlt).trans hget⟩
    · intro pieces result hrun
      obtain ⟨plains, hplains, hpairs⟩ := runMatch_pairs build' decrypt reveal w hsetup hrun
      refine ⟨plains, hplains, fun i j hpair => ?_⟩
      obtain ⟨x, hi, hj⟩ := hpairs i j hpair
      have hlt : j < inputs.length := hcount ▸ (List.getElem?_eq_some_iff.mp hj).1
      obtain ⟨row, input, hp, hrow, hget⟩ := producedSetup_getElem? S encrypt hlt
      rw [hget] at hj
      exact ⟨row, input, hp, hrow, hi.trans hj.symm⟩
  · cases hsetup : setupOutcome windows.flatten with
    | ok es =>
      rw [hwindows] at hsetup
      exact absurd ((hgrammar _).mp (setupOutcome_eq_ok_iff.mp hsetup)).2 hdistinct
    | error e =>
      rw [hsetup] at hcalled
      refine ⟨iff_of_false hcalled hdistinct, fun hall => absurd hall hcalled, fun pieces result hrun => ?_⟩
      have houtcome := runMatch_outcome build' decrypt reveal w windows pieces
      rw [hsetup] at houtcome
      exact nomatch houtcome.symm.trans hrun

/-- Two inputs out of order, and a vector that was too long. -/
theorem produced_setup_accepted_swapped :
    ∃ info p, PsiServer.createSetupMessage (fun _ => 0) .insertion .sequential ⟨⟨.ok, .ok, .ok⟩, true⟩
        (1 / 2 : ℚ) 1 [[2], [1]] .raw (some [7, 7, 7]) = .ok (.raw info, some p) ∧
      p.Perm (List.range 2) ∧ (info.serializeSetup.length < 2 ^ 32 →
        ∀ windows : List Bytes, windows.flatten = info.serializeSetup →
          (∀ status ∈ (calls .sequential .ok ({ revealIntersection := true }, {}) (setupCalls windows)).1,
            status = .ok)) := by
  obtain ⟨info, p, hmessage, hp, haccepted⟩ := produced_setup_accepted (fun _ => 0) .insertion .sequential
    .sequential ⟨⟨.ok, .ok, .ok⟩, true⟩ (1 / 2 : ℚ) 1 .ok true {} (show ∀ input ∈ ([[2], [1]] : List Bytes),
      (.ok input : Except Error Bytes) = .ok (id input) from fun _ _ => rfl) (by decide) [7, 7, 7]
  exact ⟨info, p, hmessage, hp, fun hbytes windows hwindows =>
    (haccepted hbytes windows hwindows).1.mpr (by decide)⟩

end Produced

end PsiMatch
end PrivateSetIntersection
