import PrivateSetIntersection.Bindings.Codecs
import PrivateSetIntersection.Bindings.Match
import PrivateSetIntersection.Protocol.PrivateKeys

/-! `server.ts` and `client.ts` over the two bindings. The WASM binding goes on with what a
failed parse leaves of a message, and its numbers have 32 bits. -/
namespace PrivateSetIntersection.Javascript
open Library

/-- A string, in UTF-16. A surrogate may stand alone. -/
abbrev Text := List UInt16

/-- `Value` of a message. What a failed `SerializeToArray` leaves in the array is not said. -/
def serialized {M : Type} (pb : Protobuf M) (message : M) : StatusOr Bytes := .ofOption (pb.serializeToArray message)

/-- What a failed `ParseFromString` leaves in each message. -/
structure Leftovers where
  serverSetup : Bytes → ServerSetup
  request : Bytes → Request
  response : Bytes → Response

namespace Backend

def count : Backend → Int → Int
  | .wasm, n => n % 2 ^ 32
  | .native _, n => n

def index : Backend → Nat → Int
  | .wasm, n => (n : Int).bmod (2 ^ 32)
  | .native _, n => n

def size : Backend → Nat → Int
  | .wasm, n => n % 2 ^ 32
  | .native _, n => n

/-- Whether a container's `std::size_t`s, the length of its bytes and a filter's number of bits,
are what the library counts in 64 bits. What they wrap to is not modelled. -/
def spans : Backend → ServerSetup → Bool
  | .wasm, .gcs info => decide (info.bits.length < 2 ^ 32)
  | .wasm, .bloomFilter info => decide (8 * info.bits.length < 2 ^ 32)
  | _, _ => true

section Bindings
variable (backend : Backend) (pb : Protobufs) (leftovers : Leftovers) (sha256 : Bytes → Nat) (S : ComparisonSort)

def read {M : Type} (pb : Protobuf M) (leftover : Bytes → M) (failed : String) (bytes : Bytes) : StatusOr M :=
  match backend with
  | .wasm => .ok ((pb.parseFromArray bytes).getD (leftover bytes))
  | .native _ => CInterface.readInput pb failed bytes

section Server
variable {D : Type} [DoubleArithmetic D]

def CreateSetupMessage (server : PsiServer) (fpr : D) (numClientInputs : Int) (inputs : List Bytes)
    (ds : DataStructure) (includeSortingPermutation : Bool) : StatusOr (Bytes × Option (List Int)) := do
  let sortingPermutation := if ds = .raw then some (List.replicate inputs.length 0) else none
  let (setup, sortingPermutation) ← server.createSetupMessage sha256 S backend.build fpr
    (backend.count numClientInputs) inputs ds sortingPermutation
  if ¬ backend.spans setup then .undefined
  else
    let value ← serialized pb.serverSetup setup
    let permutation := if includeSortingPermutation ∧ ds = .raw then sortingPermutation else none
    return (value, permutation.map (List.map backend.index))

def ProcessRequest (server : PsiServer) (clientRequest : Bytes) : StatusOr Bytes := do
  let request ← backend.read pb.request leftovers.request "failed to parse client request" clientRequest
  let response ← server.processRequest S backend.build request
  serialized pb.response response

end Server

def CreateRequest (client : PsiClient) (inputs : List Bytes) : StatusOr Bytes := do
  let request ← client.createRequest backend.build inputs
  serialized pb.request request

def ParseSetupAndResponse (serverSetup serverResponse : Bytes) : StatusOr (ServerSetup × Response) := do
  let setup ← backend.read pb.serverSetup leftovers.serverSetup "failed to parse server setup" serverSetup
  let response ← backend.read pb.response leftovers.response "failed to parse server response" serverResponse
  return (setup, response)

def GetIntersection (client : PsiClient) (serverSetup serverResponse : Bytes) : StatusOr (List Int) := do
  let (setup, response) ← backend.ParseSetupAndResponse pb leftovers serverSetup serverResponse
  if ¬ backend.spans setup then .undefined
  else
    let intersection ← client.getIntersection sha256 S backend.build setup response
    return intersection.map backend.index

def GetAssociationTable (client : PsiClient) (serverSetup serverResponse : Bytes) :
    StatusOr (List Int × List Int) := do
  let (setup, response) ← backend.ParseSetupAndResponse pb leftovers serverSetup serverResponse
  let table ← client.getAssociationTable S backend.build setup response
  return (table.1.map backend.index, table.2.map backend.index)

def GetIntersectionSize (client : PsiClient) (serverSetup serverResponse : Bytes) : StatusOr Int := do
  let (setup, response) ← backend.ParseSetupAndResponse pb leftovers serverSetup serverResponse
  if ¬ backend.spans setup then .undefined
  else
    let size ← client.getIntersectionSize sha256 S backend.build setup response
    return backend.size size

end Bindings

end Backend

def live {Instance : Type} : Option Instance → Outcome Instance
  | some instance' => .returned instance'
  | none => .thrown ERROR_INSTANCE_DELETED

section Methods
variable (F : CipherFactory) (backend : Backend) (pb : Protobufs) (codecs : Codecs) (utf8 : Text → Bytes)
  (leftovers : Leftovers) (sha256 : Bytes → Nat) (S : ComparisonSort)

namespace Server
variable {D : Type} [DoubleArithmetic D]

def createFromKey (key : Bytes) (revealIntersection : Bool) : Outcome (Option PsiServer) :=
  .ofStatusOr Error.message (some <$> PsiServer.createFromKey F key revealIntersection)

/-- The setup, and the caller's array after the call. -/
def createSetupMessage (server : Option PsiServer) (fpr : D) (numClientInputs : Int) (inputs : List Text)
    (dataStructure : Option DataStructure) (sortingPermutation : Option (List Int)) :
    Outcome ServerSetup × Option (List Int) :=
  match server with
  | none => (.thrown ERROR_INSTANCE_DELETED, sortingPermutation)
  | some instance' =>
    match backend.CreateSetupMessage pb sha256 S instance' fpr numClientInputs (inputs.map utf8)
      (dataStructure.getD .gcs) sortingPermutation.isSome with
    | .error e => (.thrown e.message, sortingPermutation)
    | .undefined => (.undefined, sortingPermutation)
    | .ok (value, permutation) =>
      match sortingPermutation, permutation with
      | none, _ => (.ofExcept (codecs.serverSetup.decode value), none)
      | some base, none => (.thrown "sorting permutation is only available with DataStructure.Raw", some base)
      | some base, some perm => (.ofExcept (codecs.serverSetup.decode value), some (base ++ perm))

def processRequest (server : Option PsiServer) (clientRequest : Request) : Outcome Response := do
  let instance' ← live server
  answerMessage codecs.request codecs.response
    (fun bytes => .ofStatusOr Error.message (backend.ProcessRequest pb leftovers S instance' bytes)) clientRequest

def getPrivateKeyBytes (server : Option PsiServer) : Outcome Bytes := do
  let instance' ← live server
  .ofStatusOr Error.message (instance'.getPrivateKeyBytes F)

end Server

namespace Client

def createFromKey (key : Bytes) (revealIntersection : Bool) : Outcome (Option PsiClient) :=
  .ofStatusOr Error.message (some <$> PsiClient.createFromKey F key revealIntersection)

def createRequest (client : Option PsiClient) (inputs : List Text) : Outcome Request := do
  let instance' ← live client
  makeMessage codecs.request (.ofStatusOr Error.message (backend.CreateRequest pb instance' (inputs.map utf8)))

def answer {α : Type} (call : PsiClient → Bytes → Bytes → StatusOr α) (client : Option PsiClient)
    (setup : ServerSetup) (response : Response) : Outcome α := do
  let instance' ← live client
  answerMessages codecs (fun setupBytes responseBytes =>
    .ofStatusOr Error.message (call instance' setupBytes responseBytes)) setup response

def getIntersection : Option PsiClient → ServerSetup → Response → Outcome (List Int) :=
  answer codecs (backend.GetIntersection pb leftovers sha256 S)

def getAssociationTable : Option PsiClient → ServerSetup → Response → Outcome (List Int × List Int) :=
  answer codecs (backend.GetAssociationTable pb leftovers S)

def getIntersectionSize : Option PsiClient → ServerSetup → Response → Outcome Int :=
  answer codecs (backend.GetIntersectionSize pb leftovers sha256 S)

def createMatch (client : Option PsiClient) : Outcome (ElementOp × Match) := do
  let instance' ← live client
  let (decrypt, m) ← .ofStatusOr Error.message (instance'.createMatch F)
  return (decrypt, { live := some m })

def getPrivateKeyBytes (client : Option PsiClient) : Outcome Bytes := do
  let instance' ← live client
  .ofStatusOr Error.message (instance'.getPrivateKeyBytes F)

end Client

end Methods

section Numbers

/-- The setups that a program can be given: a `Number` holds the integers of one whose range is
below its 53 bits, and the binding's sizes the lengths in it. -/
def Backend.Holds (backend : Backend) (setup : ServerSetup) : Prop :=
  backend.spans setup = true ∧
    match setup with
    | .gcs info => -2 ^ 53 < info.hashRange ∧ info.hashRange < 2 ^ 53
    | _ => True

theorem Backend.holds_raw (backend : Backend) (info : RawInfo) : backend.Holds (.raw info) := by
  cases backend <;> exact ⟨rfl, trivial⟩

variable (backend : Backend) {n : Nat}

theorem Backend.count_eq {count : Int} (h : 0 ≤ count ∧ count < 2 ^ 32) : backend.count count = count := by
  cases backend with
  | wasm => exact Int.emod_eq_of_lt h.1 h.2
  | native build => rfl

theorem Backend.index_eq (h : n < 2 ^ 31) : backend.index n = Int.ofNat n := by
  cases backend with
  | wasm =>
    have hbmod : (n : Int).bmod (2 ^ 32) = n := by
      rw [Int.bmod_def]
      omega
    exact hbmod
  | native build => rfl

theorem Backend.size_eq (h : n < 2 ^ 31) : backend.size n = Int.ofNat n := by
  cases backend with
  | wasm =>
    refine Int.emod_eq_of_lt ?_ ?_
    · exact Int.natCast_nonneg n
    · omega
  | native build => rfl

theorem Backend.map_index {indices : List Nat} (h : ∀ i ∈ indices, i < 2 ^ 31) :
    indices.map backend.index = numbers indices :=
  List.map_congr_left fun i hi => backend.index_eq (h i hi)

end Numbers

section Calls
variable (backend : Backend) {pb : Protobufs} {limit : Nat} (hpb : pb.Lawful limit) {codecs : Codecs}
  (utf8 : Text → Bytes) (leftovers : Leftovers) (sha256 : Bytes → Nat) (S : ComparisonSort)
  (hcodecs : codecs.Conform pb limit backend.Holds)

theorem Backend.read_eq {M : Type} {pb : Protobuf M} {bytes : Bytes} {m : M} (leftover : Bytes → M)
    (failed : String) (hsize : bytes.length < sizeLimit) (h : pb.parseFromArray bytes = some m) :
    backend.read pb leftover failed bytes = .ok m := by
  cases backend with
  | wasm =>
    rw [Backend.read, h]
    rfl
  | native build => exact CInterface.readInput_of_some hsize h

theorem serialized_eq {M : Type} {pb : Protobuf M} {m : M} {bytes : Bytes} (h : pb.serializeToArray m = some bytes) :
    serialized pb m = .ok bytes := by
  rw [serialized, h]
  rfl

theorem Backend.ParseSetupAndResponse_eq {setup : ServerSetup} {response : Response}
    {setupBytes responseBytes : Bytes} (hsetupSize : setupBytes.length < sizeLimit)
    (hresponseSize : responseBytes.length < sizeLimit)
    (hsetup : pb.serverSetup.parseFromArray setupBytes = some setup)
    (hresponse : pb.response.parseFromArray responseBytes = some response) :
    backend.ParseSetupAndResponse pb leftovers setupBytes responseBytes = .ok (setup, response) := by
  rw [Backend.ParseSetupAndResponse, backend.read_eq _ _ hsetupSize hsetup, StatusOr.ok_bind,
    backend.read_eq _ _ hresponseSize hresponse]
  rfl

include hpb hcodecs

section Server
variable {D : Type} [DoubleArithmetic D] (server : PsiServer)

theorem Server.createSetupMessage_eq (fpr : D) {numClientInputs : Int}
    (hcount : 0 ≤ numClientInputs ∧ numClientInputs < 2 ^ 32) (inputs : List Text)
    (dataStructure : Option DataStructure)
    (hsend : ∀ setup, server.setupMessage sha256 S backend.build fpr numClientInputs (inputs.map utf8)
      (dataStructure.getD .gcs) = .ok setup → Message.Sendable pb.serverSetup limit backend.Holds setup) :
    createSetupMessage backend pb codecs utf8 sha256 S (some server) fpr numClientInputs inputs dataStructure none =
      (.ofStatusOr Error.message (server.setupMessage sha256 S backend.build fpr numClientInputs (inputs.map utf8)
        (dataStructure.getD .gcs)), none) := by
  rw [createSetupMessage, Backend.CreateSetupMessage, backend.count_eq hcount]
  generalize dataStructure.getD .gcs = ds at hsend
  generalize inputs.map utf8 = inputs at hsend
  have hfst := PsiServer.createSetupMessage_fst sha256 S backend.build server fpr numClientInputs inputs ds
    (if ds = .raw then some (List.replicate inputs.length 0) else none)
  rw [← hfst] at hsend ⊢
  cases hlib : server.createSetupMessage sha256 S backend.build fpr numClientInputs inputs ds
      (if ds = .raw then some (List.replicate inputs.length 0) else none) with
  | error e => rfl
  | undefined => rfl
  | ok made =>
    have hm := hsend made.1 (by rw [hlib]; rfl)
    obtain ⟨bytes, hbytes, -, -⟩ := hpb.serverSetup.carried made.1 hm.fits hm.size
    have hdecoded := hcodecs.serverSetup.reads made.1 bytes hm hbytes
    simp only [StatusOr.ok_bind, StatusOr.pure_eq, Option.isSome_none, Outcome.ofStatusOr_ok,
      if_neg (not_not.mpr hm.holds.1), serialized_eq hbytes]
    rw [hdecoded, Outcome.ofExcept_ok]

/-- With one, the rows of a raw list are put behind what it holds. -/
theorem Server.createSetupMessage_raw (fpr : D) (numClientInputs : Int) {inputs : List Text} {encrypted : List Bytes}
    (hencrypt : (inputs.map utf8).mapM server.ecCipher.encrypt = .ok encrypted)
    (hsize : pb.serverSetup.byteSizeLong (.raw ⟨(sortedRaw S encrypted).encrypted⟩) < limit) (base : List Int) :
    createSetupMessage backend pb codecs utf8 sha256 S (some server) fpr numClientInputs inputs (some .raw)
        (some base) =
      (.returned (.raw ⟨(sortedRaw S encrypted).encrypted⟩),
        some (base ++ numbers (sortingPermutation S encrypted))) := by
  have hcount : encrypted.length < 2 ^ 31 := by
    rw [← (sortedRaw_perm S encrypted).length_eq]
    exact hpb.serverSetup.length_elements_lt hsize
  have hrows : ∀ row ∈ sortingPermutation S encrypted, row < 2 ^ 31 := by
    intro row hrow
    exact (List.mem_range.mp ((sortingPermutation_perm S encrypted).mem_iff.mp hrow)).trans hcount
  rw [createSetupMessage, Backend.CreateSetupMessage,
    show (some DataStructure.raw).getD .gcs = .raw from rfl,
    PsiServer.createSetupMessage_raw sha256 S backend.build server fpr _ hencrypt]
  have hholds := backend.holds_raw ⟨(sortedRaw S encrypted).encrypted⟩
  have hfits : Message.Fits (ServerSetup.raw ⟨(sortedRaw S encrypted).encrypted⟩) := trivial
  generalize ServerSetup.raw ⟨(sortedRaw S encrypted).encrypted⟩ = setup at hsize hholds hfits
  obtain ⟨bytes, hbytes, -, -⟩ := hpb.serverSetup.carried setup hfits hsize
  have hdecoded := hcodecs.serverSetup.reads setup bytes ⟨hfits, hsize, hholds⟩ hbytes
  simp only [StatusOr.ok_bind, StatusOr.pure_eq, if_true, Option.map_some, Option.isSome_some, and_self,
    if_neg (not_not.mpr hholds.1), serialized_eq hbytes]
  rw [hdecoded, Outcome.ofExcept_ok, backend.map_index hrows]

theorem Server.processRequest_eq {request : Request} (hrequest : pb.request.byteSizeLong request < limit)
    (hsend : ∀ response, server.processRequest S backend.build request = .ok response →
      pb.response.byteSizeLong response < limit) :
    processRequest backend pb codecs leftovers S (some server) request =
      .ofStatusOr Error.message (server.processRequest S backend.build request) := by
  refine answerMessage_eq Error.message hpb.response hcodecs.request hcodecs.response
    (fun _ _ => serialized_eq) ⟨trivial, hrequest, trivial⟩ ?_ ?_
  · intro bytes hsize hparsed
    rw [Backend.ProcessRequest, backend.read_eq _ _ hsize hparsed, StatusOr.ok_bind]
  · exact fun response h => ⟨trivial, hsend response h, trivial⟩

end Server

section Client
variable (client : PsiClient)

theorem Client.createRequest_eq (inputs : List Text)
    (hsend : ∀ request, client.createRequest backend.build (inputs.map utf8) = .ok request →
      pb.request.byteSizeLong request < limit) :
    createRequest backend pb codecs utf8 (some client) inputs =
      .ofStatusOr Error.message (client.createRequest backend.build (inputs.map utf8)) :=
  makeMessage_eq Error.message hpb.request hcodecs.request (fun _ _ => serialized_eq)
    fun request h => ⟨trivial, hsend request h, trivial⟩

variable {setup : ServerSetup} {response : Response}
  (hsetup : Message.Sendable pb.serverSetup limit backend.Holds setup)
  (hresponse : pb.response.byteSizeLong response < limit)
include hsetup hresponse

omit hpb in
/-- A call on the two messages is the library's on what they are parsed to. -/
theorem Client.answer_eq {α : Type} {call : PsiClient → Bytes → Bytes → StatusOr α} {lib : StatusOr α}
    (hcall : ∀ setupBytes responseBytes,
      backend.ParseSetupAndResponse pb leftovers setupBytes responseBytes = .ok (setup, response) →
      call client setupBytes responseBytes = lib) :
    answer codecs call (some client) setup response = .ofStatusOr Error.message lib := by
  refine answerMessages_eq hcodecs hsetup ⟨trivial, hresponse, trivial⟩ ?_
  intro setupBytes responseBytes hsetupSize hresponseSize hsetupParsed hresponseParsed
  rw [hcall _ _
    (backend.ParseSetupAndResponse_eq leftovers hsetupSize hresponseSize hsetupParsed hresponseParsed)]

theorem Client.getIntersectionSize_eq :
    getIntersectionSize backend pb codecs leftovers sha256 S (some client) setup response =
      .ofStatusOr Error.message (client.getIntersectionSize sha256 S backend.build setup response >>=
        fun size => .ok (Int.ofNat size)) := by
  refine Client.answer_eq backend leftovers hcodecs client hsetup hresponse fun setupBytes responseBytes hparsed => ?_
  rw [Backend.GetIntersectionSize, hparsed, StatusOr.ok_bind]
  dsimp only
  rw [if_neg (not_not.mpr hsetup.holds.1)]
  refine StatusOr.bind_congr_ok fun size hsize => ?_
  have hle := PsiClient.getIntersectionSize_le sha256 S backend.build client setup response hsize
  exact congrArg StatusOr.ok (backend.size_eq (hle.trans_lt (hpb.response.length_elements_lt hresponse)))

theorem Client.getIntersection_eq :
    getIntersection backend pb codecs leftovers sha256 S (some client) setup response =
      .ofStatusOr Error.message (client.getIntersection sha256 S backend.build setup response >>=
        fun indices => .ok (numbers indices)) := by
  refine Client.answer_eq backend leftovers hcodecs client hsetup hresponse fun setupBytes responseBytes hparsed => ?_
  rw [Backend.GetIntersection, hparsed, StatusOr.ok_bind]
  dsimp only
  rw [if_neg (not_not.mpr hsetup.holds.1)]
  refine StatusOr.bind_congr_ok fun indices hindices => ?_
  have hpositions := PsiClient.getIntersection_positions sha256 S backend.build client setup response hindices
  exact congrArg StatusOr.ok (backend.map_index fun i hi =>
    (hpositions.inside i hi).trans (hpb.response.length_elements_lt hresponse))

theorem Client.getAssociationTable_eq :
    getAssociationTable backend pb codecs leftovers S (some client) setup response =
      .ofStatusOr Error.message (client.getAssociationTable S backend.build setup response >>=
        fun table => .ok (numbers table.1, numbers table.2)) := by
  refine Client.answer_eq backend leftovers hcodecs client hsetup hresponse fun setupBytes responseBytes hparsed => ?_
  rw [Backend.GetAssociationTable, hparsed, StatusOr.ok_bind]
  refine StatusOr.bind_congr_ok fun table htable => ?_
  obtain ⟨hlength, -, hinside⟩ :=
    PsiClient.getAssociationTable_positions S backend.build client setup response htable
  refine congrArg StatusOr.ok (Prod.ext (backend.map_index fun i hi => ?_) (backend.map_index fun j hj => ?_))
  · rw [← List.map_fst_zip hlength.le] at hi
    obtain ⟨p, hp, rfl⟩ := List.mem_map.mp hi
    exact (hinside p hp).1.trans (hpb.response.length_elements_lt hresponse)
  · rw [← List.map_snd_zip hlength.ge] at hj
    obtain ⟨p, hp, rfl⟩ := List.mem_map.mp hj
    exact (hinside p hp).2.trans (hpb.serverSetup.length_elements_lt hsetup.size)

end Client

end Calls

section Exchange
variable {D : Type} [DoubleArithmetic D] (backend backend' : Backend) {pb : Protobufs} {limit : Nat}
  (hpb : pb.Lawful limit) {codecs codecs' : Codecs} (utf8 utf8' : Text → Bytes) (leftovers leftovers' : Leftovers)
  (sha256 : Bytes → Nat) (S S' : ComparisonSort) (fpr : D) (numClientInputs : Int) {server : PsiServer}
  {client : PsiClient} {serverInputs clientInputs : List Bytes}
include hpb

/-- The table of a raw list, led through the rows of the server's array. -/
theorem Client.table_of_rows (hcodecs : codecs.Conform pb limit backend.Holds)
    (hcipher : Commutes server client serverInputs clientInputs) (hreveal : client.revealIntersection = true)
    {response : Response} (hresponse : pb.response.byteSizeLong response < limit)
    (hplains : response.encryptedElements.mapM client.ecCipher.decrypt = .ok (clientInputs.map server.masked)) :
    let elements := serverInputs.map server.masked
    pb.serverSetup.byteSizeLong (.raw ⟨(sortedRaw S elements).encrypted⟩) < limit →
    ∃ first second paired,
      getAssociationTable backend pb codecs leftovers S' (some client) (.raw ⟨(sortedRaw S elements).encrypted⟩)
        response = .returned (numbers first, numbers second) ∧ first.length = second.length ∧
      second.mapM (fun k => (sortingPermutation S elements)[k]?) = some paired ∧ (first.zip paired).Nodup ∧
      ∀ i j, (i, j) ∈ first.zip paired ↔ ∃ x, clientInputs[i]? = some x ∧ serverInputs[j]? = some x := by
  intro elements hsize
  have hsetup : Message.Sendable pb.serverSetup limit backend.Holds (.raw ⟨(sortedRaw S elements).encrypted⟩) :=
    ⟨trivial, hsize, backend.holds_raw _⟩
  obtain ⟨table, htable, hlength, hpairs⟩ :=
    PsiClient.getAssociationTable_raw S' backend.build client hreveal hplains (sortedRaw_ascending S elements)
  obtain ⟨paired, hpaired, hnodup, hmem⟩ := rows_of_table S hlength hpairs
  refine ⟨table.1, table.2, paired, ?_, hlength, hpaired, hnodup, fun i j => ?_⟩
  · rw [Client.getAssociationTable_eq backend hpb leftovers S' hcodecs client hsetup hresponse, htable]
    rfl
  · exact (hmem i j).trans (hcipher.rows_iff i j)

/-- An exchange of two programs, each on either binding, about raw lists: the size is that of
the multiset intersection of the bytes that their strings are converted to, and a client to
which it is revealed is given its indices and the rows of equal bytes, led through what the
server's program finds behind its array. -/
theorem javascript_exchange_end_to_end {serverInputs clientInputs : List Text}
    (hcodecs : codecs.Conform pb limit backend.Holds) (hcodecs' : codecs'.Conform pb limit backend'.Holds)
    (hcipher : Commutes server client (serverInputs.map utf8) (clientInputs.map utf8'))
    (hmode : client.revealIntersection = server.revealIntersection)
    (hcarried : Carried sha256 S backend.build backend'.build pb limit server client fpr numClientInputs
      (serverInputs.map utf8) (clientInputs.map utf8') .raw) (base : List Int) :
    ∃ setup rows request response,
      Server.createSetupMessage backend pb codecs utf8 sha256 S (some server) fpr numClientInputs serverInputs
        (some .raw) (some base) = (.returned setup, some (base ++ numbers rows)) ∧
      Client.createRequest backend' pb codecs' utf8' (some client) clientInputs = .returned request ∧
      Server.processRequest backend pb codecs leftovers S (some server) request = .returned response ∧
      Client.getIntersectionSize backend' pb codecs' leftovers' sha256 S' (some client) setup response =
        .returned ((clientInputs.map utf8' : Multiset Bytes) ∩ serverInputs.map utf8).card ∧
      let indices := Client.getIntersection backend' pb codecs' leftovers' sha256 S' (some client) setup response
      let table := Client.getAssociationTable backend' pb codecs' leftovers' S' (some client) setup response
      if client.revealIntersection then
        (∃ found, indices = .returned (numbers found) ∧ found.Nodup ∧
          ∀ i, i ∈ found ↔ Occurrences.Within (clientInputs.map utf8') (serverInputs.map utf8) i) ∧
        ∃ first second paired, table = .returned (numbers first, numbers second) ∧ first.length = second.length ∧
          second.mapM (fun k => rows[k]?) = some paired ∧ (first.zip paired).Nodup ∧
          ∀ i j, (i, j) ∈ first.zip paired ↔
            ∃ x, (clientInputs.map utf8')[i]? = some x ∧ (serverInputs.map utf8)[j]? = some x
      else
        indices = .thrown "GetIntersection called on PsiClient with reveal_intersection == false" ∧
        table = .thrown "GetAssociationTable called on PsiClient with reveal_intersection == false" := by
  obtain ⟨elements, helements⟩ := Traversal.exists_mapM_ok_iff.mpr hcipher.encrypt
  have hsetupSize := hcarried.setup _
    (PsiServer.setupMessage_raw sha256 S backend.build server fpr numClientInputs helements)
  have hsetup : Message.Sendable pb.serverSetup limit backend'.Holds (.raw ⟨(sortedRaw S elements).encrypted⟩) :=
    ⟨trivial, hsetupSize, backend'.holds_raw _⟩
  have hmessage := Server.createSetupMessage_raw backend hpb utf8 sha256 S hcodecs server fpr numClientInputs helements
    hsetupSize base
  obtain rfl := PsiServer.eq_map_masked helements
  obtain ⟨request, response, plains, hrequest, hresponse, hplains, -, horder⟩ :=
    hcipher.response S backend.build backend'.build hmode
  obtain ⟨request', response', hrequest', hresponse', hsize, hanswers⟩ :=
    hcipher.raw_answers sha256 S S' backend.build backend'.build hmode
  cases hrequest.symm.trans hrequest'
  cases hresponse.symm.trans hresponse'
  have hrequestSize := hcarried.request request hrequest
  have hresponseSize := hcarried.response request response hrequest hresponse
  refine ⟨_, _, request, response, hmessage, ?_, ?_, ?_, ?_⟩
  · rw [Client.createRequest_eq backend' hpb utf8' hcodecs' client clientInputs hcarried.request, hrequest]
    rfl
  · rw [Server.processRequest_eq backend hpb leftovers S hcodecs server hrequestSize
      fun response' h => hcarried.response request response' hrequest h, hresponse]
    rfl
  · rw [Client.getIntersectionSize_eq backend' hpb leftovers' sha256 S' hcodecs' client hsetup hresponseSize, hsize]
    rfl
  · intro indices table
    have hindices :=
      Client.getIntersection_eq backend' hpb leftovers' sha256 S' hcodecs' client hsetup hresponseSize
    split <;> rename_i hreveal
    · rw [if_pos hreveal] at hanswers horder
      obtain ⟨found, hfound, hnodup, hmem⟩ := hanswers
      rw [hfound] at hindices
      subst horder
      exact ⟨⟨found, hindices, hnodup, hmem⟩,
        Client.table_of_rows backend' hpb leftovers' S S' hcodecs' hcipher hreveal hresponseSize hplains hsetupSize⟩
    · rw [if_neg hreveal] at hanswers
      rw [hanswers.2.1] at hindices
      have htable := Client.getAssociationTable_eq backend' hpb leftovers' S' hcodecs' client hsetup hresponseSize
      rw [hanswers.2.2] at htable
      exact ⟨hindices, htable⟩

omit hpb in
/-- A server on the WASM binding and a client on the addon, with strings of ASCII, a repeat on
the client's side and an array that holds a number already. -/
theorem javascript_exchange_end_to_end_revealed :
    let utf8 : Text → Bytes := List.map UInt16.toUInt8
    let leftovers : Leftovers := ⟨fun _ => .dataStructureNotSet, fun _ => {}, fun _ => {}⟩
    let codecs := Codecs.cpp CInterface.rawMessages
    ∃ setup rows request response,
      Server.createSetupMessage .wasm CInterface.rawMessages codecs utf8 (fun _ => 0) .insertion
        (some ⟨xorCipher 5, true⟩) (1 / 2 : ℚ) 3 [[2], [1]] (some .raw) (some [7]) =
        (.returned setup, some ([7] ++ numbers rows)) ∧
      Client.createRequest (.native .sequential) CInterface.rawMessages codecs utf8 (some ⟨xorCipher 3, true⟩)
        [[2], [3], [2]] = .returned request ∧
      Server.processRequest .wasm CInterface.rawMessages codecs leftovers .insertion (some ⟨xorCipher 5, true⟩)
        request = .returned response ∧
      Client.getIntersectionSize (.native .sequential) CInterface.rawMessages codecs leftovers (fun _ => 0) .insertion
        (some ⟨xorCipher 3, true⟩) setup response = .returned 1 := by
  intro utf8 leftovers codecs
  obtain ⟨setup, rows, request, response, hsetup, hrequest, hresponse, hsize, -⟩ :=
    @javascript_exchange_end_to_end ℚ _ .wasm (.native .sequential) _ _ CInterface.rawMessages_lawful codecs codecs
      utf8 utf8 leftovers leftovers (fun _ => 0) .insertion .insertion (1 / 2 : ℚ) 3 ⟨xorCipher 5, true⟩
      ⟨xorCipher 3, true⟩ [[2], [1]] [[2], [3], [2]] (Codecs.cpp_conform CInterface.rawMessages_lawful _)
      (Codecs.cpp_conform CInterface.rawMessages_lawful _) (xorCipher_commutes 5 3 true true _ _) rfl
      CInterface.rawMessages_carried [7]
  exact ⟨setup, rows, request, response, hsetup, hrequest, hresponse, hsize⟩

end Exchange

end PrivateSetIntersection.Javascript
