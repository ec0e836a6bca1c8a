import PrivateSetIntersection.Bindings.MatchProgram
import PrivateSetIntersection.Bindings.Parties
import PrivateSetIntersection.Bindings.Restarts
import PrivateSetIntersection.Streaming.StreamedExchange

/-! An exchange of two JavaScript programs in which the client's makes a match and gives it
the bytes of the two messages as they arrive. -/
namespace PrivateSetIntersection.Javascript
open Library PsiMatch

/-- A library that writes the elements of a raw setup and of a response one after the other,
as a match reads them. -/
structure Canonical (codecs : Codecs) : Prop where
  serverSetup : ∀ info bytes, codecs.serverSetup.encode (.raw info) = .ok bytes → bytes = info.serializeSetup
  response : ∀ response bytes, codecs.response.encode response = .ok bytes → bytes = response.serialize

/-- As many inputs as a message that was carried has elements. -/
theorem length_clientInputs_lt {D : Type} [DoubleArithmetic D] {pb : Protobufs} {limit : Nat} (hpb : pb.Lawful limit)
    {sha256 : Bytes → Nat} {S : ComparisonSort} {build build' : Build} {server : PsiServer} {client : PsiClient}
    {fpr : D} {numClientInputs : Int} {serverInputs clientInputs : List Bytes} {ds : DataStructure}
    (hcipher : Commutes server client serverInputs clientInputs)
    (hmode : client.revealIntersection = server.revealIntersection)
    (hcarried : Carried sha256 S build build' pb limit server client fpr numClientInputs serverInputs clientInputs ds) :
    clientInputs.length < 2 ^ 31 := by
  obtain ⟨request, response, plains, hrequest, hresponse, hplains, hperm, -⟩ :=
    hcipher.response S build build' hmode
  have hcount := hpb.response.length_elements_lt (hcarried.response request response hrequest hresponse)
  have hlength : response.encryptedElements.length = clientInputs.length := by
    rw [← Traversal.length_of_mapM_ok hplains, hperm.length_eq, List.length_map]
  rw [← hlength]
  exact hcount

section Exchange
variable {D : Type} [DoubleArithmetic D] {F : CipherFactory} (hF : F.Lawful) (backend backend' : Backend)
  {pb : Protobufs} {limit : Nat} (hpb : pb.Lawful limit) {codecs codecs' : Codecs} (utf8 utf8' : Text → Bytes)
  (leftovers : Leftovers) (sha256 : Bytes → Nat) (S : ComparisonSort) (fpr : D) (numClientInputs : Int)
  {server : PsiServer} {client : PsiClient} {serverInputs clientInputs : List Text}
include hF hpb

/-- What a program sees of a match of the two messages, however their bytes are cut into
arrays: the number of the server's strings that are the client's, and their rows where the
intersection is revealed, led through what the server's program finds behind its array. A
server's repeat is thrown. -/
theorem javascript_match_end_to_end (hcodecs : codecs.Conform pb limit backend.Holds)
    (hcodecs' : codecs'.Conform pb limit backend'.Holds) (hcanonical : Canonical codecs)
    (hcipher : Commutes server client (serverInputs.map utf8) (clientInputs.map utf8'))
    (hmode : client.revealIntersection = server.revealIntersection) (hpoints : server.ecCipher.Compressed)
    (hclient : client.Made F)
    (hcarried : Carried sha256 S backend.build backend'.build pb limit server client fpr numClientInputs
      (serverInputs.map utf8) (clientInputs.map utf8') .raw) (base : List Int) :
    ∃ setup rows request response setupBytes responseBytes decrypt object,
      Server.createSetupMessage backend pb codecs utf8 sha256 S (some server) fpr numClientInputs serverInputs
        (some .raw) (some base) = (.returned setup, some (base ++ numbers rows)) ∧
      Client.createRequest backend' pb codecs' utf8' (some client) clientInputs = .returned request ∧
      Server.processRequest backend pb codecs leftovers S (some server) request = .returned response ∧
      codecs.serverSetup.encode setup = .ok setupBytes ∧ codecs.response.encode response = .ok responseBytes ∧
      Client.createMatch F (some client) = .returned (decrypt, object) ∧
      ∀ chunks pieces : List Bytes, chunks.flatten = setupBytes → pieces.flatten = responseBytes →
        let outcomes := (Match.calls backend' decrypt object (Match.program chunks pieces)).1
        if (serverInputs.map utf8).Nodup then
          ∃ result, outcomes = List.replicate (chunks.length + 1 + pieces.length) (.ok .undefined) ++
              [.ok (.result result)] ∧ result.decryptedCount = clientInputs.length ∧
            result.intersectionSize = (serverInputs.map utf8).countP (fun x => x ∈ clientInputs.map utf8') ∧
            if client.revealIntersection then
              ∃ first second paired, result.associationTable = some (first, second) ∧ first.length = second.length ∧
                second.mapM (fun k => rows[k]?) = some paired ∧ (first.zip paired).Nodup ∧
                ∀ i j, (i, j) ∈ first.zip paired ↔
                  ∃ x, (clientInputs.map utf8')[i]? = some x ∧ (serverInputs.map utf8)[j]? = some x
            else result.associationTable = none
        else ∃ k text, k ≤ chunks.length ∧
          outcomes = Match.throwing k (chunks.length + 1 + pieces.length + 1 - k) text := by
  obtain ⟨elements, helements⟩ := Traversal.exists_mapM_ok_iff.mpr hcipher.encrypt
  have hsetupSize := hcarried.setup _
    (PsiServer.setupMessage_raw sha256 S backend.build server fpr numClientInputs helements)
  have hmessage := Server.createSetupMessage_raw backend hpb utf8 sha256 S hcodecs server fpr numClientInputs helements
    hsetupSize base
  obtain ⟨setupBytes, hsetupBytes, hsetupLength, -⟩ := hcodecs.serverSetup.writes
    (.raw ⟨(sortedRaw S elements).encrypted⟩) ⟨trivial, hsetupSize, backend.holds_raw _⟩
  obtain rfl := PsiServer.eq_map_masked helements
  have hcount := length_clientInputs_lt hpb hcipher hmode hcarried
  obtain ⟨request, response, plains, hrequest, hresponse, hplains, hdecrypted, hsize, hrows⟩ :=
    responsePlains_exchange S backend.build backend'.build hcipher hmode hpoints (hcount.trans (by decide))
  have hresponseSize := hcarried.response request response hrequest hresponse
  obtain ⟨responseBytes, hresponseBytes, -, -⟩ := hcodecs.response.writes response ⟨trivial, hresponseSize, trivial⟩
  refine ⟨_, _, request, response, setupBytes, responseBytes, client.ecCipher.decrypt,
    Match.create client.revealIntersection, hmessage, ?_, ?_, hsetupBytes, hresponseBytes, ?_, ?_⟩
  · rw [Client.createRequest_eq backend' hpb utf8' hcodecs' client clientInputs hcarried.request, hrequest]
    rfl
  · rw [Server.processRequest_eq backend hpb leftovers S hcodecs server (hcarried.request request hrequest)
      fun response' h => hcarried.response request response' hrequest h, hresponse]
    rfl
  · rw [Client.createMatch, live, Outcome.returned_bind, PsiClient.createMatch_made hF (PsiClient.made_iff.mp hclient)]
    rfl
  · intro chunks pieces hchunks hpieces outcomes
    obtain rfl := hcanonical.serverSetup _ _ hsetupBytes
    obtain rfl := hcanonical.response _ _ hresponseBytes
    have hsetup := setupOutcome_masked S hcipher hpoints (hsetupLength.trans (by decide))
    have hprogram := @Match.program_outcome backend' client.ecCipher.decrypt client.revealIntersection chunks pieces
    rw [hchunks, hpieces, hplains] at hprogram
    cases hread : setupOutcome (RawInfo.serializeSetup
        ⟨(sortedRaw S ((serverInputs.map utf8).map server.masked)).encrypted⟩) with
    | error e =>
      rw [hread] at hsetup hprogram
      obtain ⟨k, hk, hthrown⟩ := hprogram
      rw [if_neg hsetup]
      exact ⟨k, e.message, hk, hthrown⟩
    | ok es =>
      rw [hread] at hsetup hprogram
      obtain ⟨hnodup, rfl⟩ := hsetup
      have hrows := hrows hnodup
      rw [if_pos hnodup]
      refine ⟨_, hprogram, hdecrypted.trans (List.length_map _), hsize, ?_⟩
      split <;> rename_i hreveal
      · rw [if_pos hreveal] at hrows
        obtain ⟨paired, hpaired, hlength, hdistinct, hmem⟩ := hrows
        exact ⟨_, _, paired, rfl, hlength, hpaired, hdistinct, hmem⟩
      · rfl

omit hF hpb in
/-- A server on the addon and a client in the browser, which asks about a string twice. -/
theorem javascript_match_end_to_end_revealed :
    let ascii : Text → Bytes := List.map UInt16.toUInt8
    let leftovers : Leftovers := ⟨fun _ => .dataStructureNotSet, fun _ => {}, fun _ => {}⟩
    let codecs := Codecs.cpp CInterface.rawMessages
    ∃ setup rows request response setupBytes responseBytes decrypt object,
      Server.createSetupMessage (.native .sequential) CInterface.rawMessages codecs ascii (fun _ => 0) .insertion
        (some ⟨pointCipher 5, true⟩) (1 / 2 : ℚ) 3 [[2], [1]] (some .raw) (some []) = (.returned setup, some rows) ∧
      Client.createRequest .wasm CInterface.rawMessages codecs ascii (some ⟨pointCipher 3, true⟩) [[2], [3], [2]] =
        .returned request ∧
      Server.processRequest (.native .sequential) CInterface.rawMessages codecs leftovers .insertion
        (some ⟨pointCipher 5, true⟩) request = .returned response ∧
      codecs.serverSetup.encode setup = .ok setupBytes ∧ codecs.response.encode response = .ok responseBytes ∧
      Client.createMatch CInterface.pointFactory (some ⟨pointCipher 3, true⟩) = .returned (decrypt, object) ∧
      ∀ chunks pieces : List Bytes, chunks.flatten = setupBytes → pieces.flatten = responseBytes →
        ∃ result, (Match.calls .wasm decrypt object (Match.program chunks pieces)).1 =
            List.replicate (chunks.length + 1 + pieces.length) (.ok .undefined) ++ [.ok (.result result)] ∧
          result.intersectionSize = 1 := by
  intro ascii leftovers codecs
  have hpb := CInterface.rawMessages_lawful
  have hcanonical : Canonical codecs := by
    constructor
    · intro info bytes h
      obtain ⟨hinfo, rfl⟩ := Codec.cpp_single_encode h
      cases hinfo
      decide +kernel
    · intro response bytes h
      obtain ⟨rfl, rfl⟩ := Codec.cpp_single_encode h
      decide +kernel
  have hcarried : Carried (fun _ => 0) .insertion .sequential .sequential CInterface.rawMessages sizeLimit
      ⟨pointCipher 5, true⟩ ⟨pointCipher 3, true⟩ (1 / 2 : ℚ) 3 [[2], [1]] [[2], [3], [2]] .raw := by
    refine ⟨fun setup h => ?_, fun request h => ?_, fun request response h h' => ?_⟩
    · cases h
      decide
    · cases h
      decide
    · cases h
      cases h'
      decide
  obtain ⟨setup, rows, request, response, setupBytes, responseBytes, decrypt, object, hsetup, hrequest, hresponse,
      hsetupBytes, hresponseBytes, hmade, hmatch⟩ :=
    @javascript_match_end_to_end ℚ _ CInterface.pointFactory CInterface.pointFactory_lawful (.native .sequential) .wasm
      _ _ hpb codecs codecs ascii ascii leftovers (fun _ => 0) .insertion (1 / 2 : ℚ) 3 ⟨pointCipher 5, true⟩
      ⟨pointCipher 3, true⟩ [[2], [1]] [[2], [3], [2]] (Codecs.cpp_conform hpb _) (Codecs.cpp_conform hpb _) hcanonical
      (@pointCipher_commutes 5 3 true [[2], [1]] [[2], [3], [2]] (by decide) (by decide)) rfl (pointCipher_compressed 5)
      (.inl ⟨3, true, rfl⟩) hcarried []
  refine ⟨setup, numbers rows, request, response, setupBytes, responseBytes, decrypt, object, hsetup, hrequest,
    hresponse, hsetupBytes, hresponseBytes, hmade, fun chunks pieces hchunks hpieces => ?_⟩
  have houtcomes := hmatch chunks pieces hchunks hpieces
  dsimp only at houtcomes
  rw [if_pos (by decide)] at houtcomes
  obtain ⟨result, hresult, -, hsize, -⟩ := houtcomes
  exact ⟨result, hresult, hsize⟩

end Exchange

end PrivateSetIntersection.Javascript
