import PrivateSetIntersection.Protocol.Exchange
import PrivateSetIntersection.Protocol.Messages

/-! `c/psi_client.cpp`, `c/psi_server.cpp` and `c/internal_utils.cpp`: the parties behind
pointers, the messages as buffers, the errors as codes and texts. -/
namespace PrivateSetIntersection
open Library

namespace CInterface

/-- What a call leaves its caller with: 0 and the outputs, or the `int` of an error and what is
written to `*error_out`, which a caller may do without. -/
inductive Returned (α : Type) where
  | outputs (value : α)
  | failed (code : Nat) (errorOut : Option String)
  | undefined
  deriving DecidableEq, Repr

namespace Returned
variable {α β γ : Type}

def bind : Returned α → (α → Returned β) → Returned β
  | .outputs a, f => f a
  | .failed code errorOut, _ => .failed code errorOut
  | .undefined, _ => .undefined

instance : Monad Returned where
  pure := .outputs
  bind := bind

@[simp] theorem outputs_bind (a : α) (f : α → Returned β) : ((.outputs a : Returned α) >>= f) = f a := rfl

theorem bind_assoc (x : Returned α) (f : α → Returned β) (g : β → Returned γ) :
    (x >>= f) >>= g = x >>= fun a => f a >>= g := by
  cases x <;> rfl

end Returned

/-- `status.raw_code()` -/
def rawCode : StatusCode → Nat
  | .cancelled => 1
  | .unknown => 2
  | .invalidArgument => 3
  | .deadlineExceeded => 4
  | .notFound => 5
  | .alreadyExists => 6
  | .permissionDenied => 7
  | .resourceExhausted => 8
  | .failedPrecondition => 9
  | .aborted => 10
  | .outOfRange => 11
  | .unimplemented => 12
  | .internal => 13
  | .unavailable => 14
  | .dataLoss => 15
  | .unauthenticated => 16

/-- What `strncpy` copies of a text, and a reader finds of it. -/
def cString (text : String) : String := String.ofList (text.toList.takeWhile (fun c => c.toNat ≠ 0))

section Calls
variable (malloc : Nat → Bool) (errorOut : Bool)

/-- The text is copied without a look at what `malloc` gave. -/
def generate_error {α : Type} (status : Error) : Returned α :=
  if ¬ errorOut then .failed (rawCode status.code) none
  else if ¬ malloc (status.message.utf8ByteSize + 1) then .undefined
  else .failed (rawCode status.code) (some (cString status.message))

def answered {α : Type} : StatusOr α → Returned α
  | .ok value => .outputs value
  | .error status => generate_error malloc errorOut status
  | .undefined => .undefined

section Messages
variable {M : Type} (pb : Protobuf M) (failed : String)

def writeOutput (proto : M) : StatusOr Bytes :=
  if ¬ malloc (pb.byteSizeLong proto) then .error (invalidArgumentError "failed to allocate memory")
  else match pb.serializeToArray proto with
    | some bytes => .ok bytes
    | none => .error (invalidArgumentError failed)

/-- `ParseFromArray` of a buffer. A length that is no `int` is converted to another one. -/
def readInput (buffer : Bytes) : StatusOr M :=
  if buffer.length < sizeLimit then
    match pb.parseFromArray buffer with
    | some proto => .ok proto
    | none => .error (invalidArgumentError failed)
  else .undefined

end Messages

variable (pb : Protobufs)

section Server
variable {D : Type} [DoubleArithmetic D] (sha256 : Bytes → Nat) (S : ComparisonSort) (build : Build)

def psi_server_create_setup_message (ctx : Option PsiServer) (fpr : D) (numClientInputs : Int)
    (input : List Bytes) (datastructure : DataStructure) : Returned Bytes :=
  answered malloc errorOut <|
    match ctx with
    | none => .error (invalidArgumentError "invalid server context")
    | some server => do
      let (proto, _) ← server.createSetupMessage sha256 S build fpr numClientInputs input datastructure none
      writeOutput malloc pb.serverSetup "failed to serialize setup message" proto

def psi_server_process_request (ctx : Option PsiServer) (clientRequest : Bytes) : Returned Bytes :=
  answered malloc errorOut <|
    match ctx with
    | none => .error (invalidArgumentError "invalid server context")
    | some server => do
      let requestProto ← readInput pb.request "failed to parse client request" clientRequest
      let proto ← server.processRequest S build requestProto
      writeOutput malloc pb.response "failed to serialize server response" proto

end Server

section Client
variable (sha256 : Bytes → Nat) (S : ComparisonSort) (build : Build)

def psi_client_create_request (ctx : Option PsiClient) (inputs : List Bytes) : Returned Bytes :=
  answered malloc errorOut <|
    match ctx with
    | none => .error (invalidArgumentError "invalid client context")
    | some client => do
      let proto ← client.createRequest build inputs
      writeOutput malloc pb.request "failed to serialize protobuffer" proto

def readInputs (serverSetup serverResponse : Bytes) : StatusOr (ServerSetup × Response) := do
  let serverSetupProto ← readInput pb.serverSetup "failed to parse server setup" serverSetup
  let serverResponseProto ← readInput pb.response "failed to parse server response" serverResponse
  return (serverSetupProto, serverResponseProto)

def psi_client_get_intersection_size (ctx : Option PsiClient) (serverSetup serverResponse : Bytes) :
    Returned Nat :=
  answered malloc errorOut <|
    match ctx with
    | none => .error (invalidArgumentError "invalid client context")
    | some client => do
      let (serverSetupProto, serverResponseProto) ← readInputs pb serverSetup serverResponse
      client.getIntersectionSize sha256 S build serverSetupProto serverResponseProto

/-- The copy of the indices into `*out`, which is allocated without a check. -/
def copyOut (result : List Nat) : StatusOr (List Nat) :=
  if result ≠ [] ∧ ¬ malloc (8 * result.length) then .undefined else .ok result

def psi_client_get_intersection (ctx : Option PsiClient) (serverSetup serverResponse : Bytes) :
    Returned (List Nat) :=
  answered malloc errorOut <|
    match ctx with
    | none => .error (invalidArgumentError "invalid client context")
    | some client => do
      let (serverSetupProto, serverResponseProto) ← readInputs pb serverSetup serverResponse
      let result ← client.getIntersection sha256 S build serverSetupProto serverResponseProto
      copyOut malloc result

end Client

section Exchange
variable {D : Type} [DoubleArithmetic D] (sha256 : Bytes → Nat) (S S' : ComparisonSort) (build build' : Build)

/-- The calls of `integration_test.cpp`, each on the buffers the ones before it left; the
client's last call is a parameter. -/
def exchange {α : Type} (answer : Option PsiClient → Bytes → Bytes → Returned α) (server : Option PsiServer)
    (client : Option PsiClient) (fpr : D) (numClientInputs : Int) (serverInputs clientInputs : List Bytes)
    (datastructure : DataStructure) : Returned α := do
  let serverSetup ← psi_server_create_setup_message malloc errorOut pb sha256 S build server fpr numClientInputs
    serverInputs datastructure
  let clientRequest ← psi_client_create_request malloc errorOut pb build' client clientInputs
  let serverResponse ← psi_server_process_request malloc errorOut pb S build server clientRequest
  answer client serverSetup serverResponse

/-- The library's calls on the messages themselves: each is allocated, serialized and parsed,
but nothing of what was parsed is used. -/
def libraryExchange {α : Type} (answer : ServerSetup → Response → StatusOr α) (server : PsiServer)
    (client : PsiClient) (fpr : D) (numClientInputs : Int) (serverInputs clientInputs : List Bytes)
    (ds : DataStructure) : StatusOr α := do
  let (setup, _) ← server.createSetupMessage sha256 S build fpr numClientInputs serverInputs ds none
  let serverSetup ← writeOutput malloc pb.serverSetup "failed to serialize setup message" setup
  let request ← client.createRequest build' clientInputs
  let clientRequest ← writeOutput malloc pb.request "failed to serialize protobuffer" request
  let _ ← readInput pb.request "failed to parse client request" clientRequest
  let response ← server.processRequest S build request
  let serverResponse ← writeOutput malloc pb.response "failed to serialize server response" response
  let _ ← readInputs pb serverSetup serverResponse
  answer setup response

variable {malloc errorOut}

section Steps
variable {α β M : Type} {failed : String}

theorem answered_bind (x : StatusOr α) (f : α → StatusOr β) :
    answered malloc errorOut (x >>= f) = answered malloc errorOut x >>= fun a => answered malloc errorOut (f a) := by
  cases x with
  | ok a => rfl
  | undefined => rfl
  | error status =>
    change generate_error malloc errorOut status = generate_error malloc errorOut status >>= _
    rw [generate_error, generate_error]
    split
    · rfl
    · split <;> rfl

theorem generate_error_ne_outputs (status : Error) (a : α) :
    (generate_error malloc errorOut status : Returned α) ≠ .outputs a := by
  rw [generate_error]
  split
  · exact nofun
  · split <;> exact nofun

theorem answered_eq_outputs {x : StatusOr α} {a : α} : answered malloc errorOut x = .outputs a ↔ x = .ok a := by
  cases x with
  | ok value => exact ⟨fun h => congrArg StatusOr.ok (Returned.outputs.inj h), fun h => by cases h; rfl⟩
  | error status => exact ⟨fun h => absurd h (generate_error_ne_outputs status a), nofun⟩
  | undefined => exact ⟨nofun, nofun⟩

theorem answered_bind_congr {x : StatusOr α} {f g : α → Returned β} (h : ∀ a, x = .ok a → f a = g a) :
    (answered malloc errorOut x >>= f) = (answered malloc errorOut x >>= g) := by
  cases x with
  | ok a => exact h a rfl
  | undefined => rfl
  | error status =>
    rw [answered, generate_error]
    split
    · rfl
    · split <;> rfl

theorem writeOutput_eq_ok {pb : Protobuf M} {proto : M} {output : Bytes}
    (h : writeOutput malloc pb failed proto = .ok output) : pb.serializeToArray proto = some output := by
  rw [writeOutput] at h
  split at h
  · cases h
  · split at h <;> rename_i bytes
    · cases h
      exact bytes
    · cases h

theorem readInput_eq_ok {pb : Protobuf M} {buffer : Bytes} {proto : M}
    (h : readInput pb failed buffer = .ok proto) : pb.parseFromArray buffer = some proto := by
  rw [readInput] at h
  split at h
  · split at h <;> rename_i parsed
    · cases h
      exact parsed
    · cases h
  · cases h

theorem writeOutput_of_some (hmalloc : ∀ n, malloc n = true) {pb : Protobuf M} {proto : M} {bytes : Bytes}
    (h : pb.serializeToArray proto = some bytes) : writeOutput malloc pb failed proto = .ok bytes := by
  rw [writeOutput, if_neg (not_not.mpr (hmalloc _)), h]

theorem readInput_of_some {pb : Protobuf M} {buffer : Bytes} {proto : M} (hsize : buffer.length < sizeLimit)
    (h : pb.parseFromArray buffer = some proto) : readInput pb failed buffer = .ok proto := by
  rw [readInput, if_pos hsize, h]

theorem copyOut_eq (hmalloc : ∀ n, malloc n = true) (result : List Nat) : copyOut malloc result = .ok result :=
  if_neg fun h => h.2 (hmalloc _)

theorem generate_error_eq (hmalloc : ∀ n, malloc n = true) (status : Error) :
    (generate_error malloc errorOut status : Returned α) =
      .failed (rawCode status.code) (if errorOut then some (cString status.message) else none) := by
  rw [generate_error, if_neg (not_not.mpr (hmalloc _))]
  cases errorOut <;> rfl

end Steps

section Refinement
variable {pb} {limit : Nat} (hpb : pb.Lawful limit) [CastsFit D]
include hpb

/-- Buffers change nothing: the functions that pass them are the library on the messages. -/
theorem exchange_refines {α : Type} {answer : Option PsiClient → Bytes → Bytes → Returned α}
    {answer' : ServerSetup → Response → StatusOr α} (server : PsiServer) (client : PsiClient)
    (hanswer : ∀ serverSetup serverResponse, answer (some client) serverSetup serverResponse =
      answered malloc errorOut (readInputs pb serverSetup serverResponse >>= fun protos => answer' protos.1 protos.2))
    (fpr : D) (numClientInputs : Int) (serverInputs clientInputs : List Bytes) (ds : DataStructure) :
    exchange malloc errorOut pb sha256 S build build' answer (some server) (some client) fpr numClientInputs
        serverInputs clientInputs ds =
      answered malloc errorOut (libraryExchange malloc pb sha256 S build build' answer' server client fpr
        numClientInputs serverInputs clientInputs ds) := by
  simp only [exchange, libraryExchange, psi_server_create_setup_message, psi_client_create_request,
    psi_server_process_request, hanswer, answered_bind, Returned.bind_assoc]
  refine answered_bind_congr fun made hmade => ?_
  obtain ⟨setup, permutation⟩ := made
  refine answered_bind_congr fun serverSetup hsetup => ?_
  refine answered_bind_congr fun request hrequest => ?_
  refine answered_bind_congr fun clientRequest hwritten => ?_
  refine answered_bind_congr fun parsed hparsed => ?_
  obtain rfl := hpb.request.same request _ parsed trivial (writeOutput_eq_ok hwritten) (readInput_eq_ok hparsed)
  refine answered_bind_congr fun response hresponse => ?_
  refine answered_bind_congr fun serverResponse hwritten' => ?_
  refine answered_bind_congr fun protos hprotos => ?_
  obtain ⟨setup', hsetup', hprotos⟩ := StatusOr.bind_eq_ok.mp hprotos
  obtain ⟨response', hresponse', hprotos⟩ := StatusOr.bind_eq_ok.mp hprotos
  obtain rfl := StatusOr.ok.inj hprotos
  have hfits := PsiServer.createSetupMessage_fits sha256 hmade
  rw [hpb.serverSetup.same setup _ setup' hfits (writeOutput_eq_ok hsetup) (readInput_eq_ok hsetup'),
    hpb.response.same response _ response' trivial (writeOutput_eq_ok hwritten') (readInput_eq_ok hresponse')]

variable (malloc errorOut) (server : PsiServer) (client : PsiClient) (fpr : D) (numClientInputs : Int)
  (serverInputs clientInputs : List Bytes) (ds : DataStructure)

theorem exchange_size_refines :
    exchange malloc errorOut pb sha256 S build build'
        (psi_client_get_intersection_size malloc errorOut pb sha256 S' build') (some server) (some client) fpr
        numClientInputs serverInputs clientInputs ds =
      answered malloc errorOut (libraryExchange malloc pb sha256 S build build'
        (client.getIntersectionSize sha256 S' build') server client fpr numClientInputs serverInputs clientInputs ds) :=
  exchange_refines sha256 S build build' hpb server client (fun _ _ => rfl) fpr numClientInputs serverInputs
    clientInputs ds

theorem exchange_indices_refines :
    exchange malloc errorOut pb sha256 S build build'
        (psi_client_get_intersection malloc errorOut pb sha256 S' build') (some server) (some client) fpr
        numClientInputs serverInputs clientInputs ds =
      answered malloc errorOut (libraryExchange malloc pb sha256 S build build'
        (fun setup response => client.getIntersection sha256 S' build' setup response >>= copyOut malloc)
        server client fpr numClientInputs serverInputs clientInputs ds) :=
  exchange_refines sha256 S build build' hpb server client (fun _ _ => rfl) fpr numClientInputs serverInputs
    clientInputs ds

end Refinement

end Exchange

end Calls

section Raw
variable {D : Type} [DoubleArithmetic D] (malloc : Nat → Bool) (errorOut : Bool) {pb : Protobufs} {limit : Nat}
  (hpb : pb.Lawful limit) (sha256 : Bytes → Nat) (S S' : ComparisonSort) (build build' : Build) (fpr : D)
  (numClientInputs : Int) {server : PsiServer} {client : PsiClient} {serverInputs clientInputs : List Bytes}

include hpb in
/-- An exchange of buffers about raw lists ends in the multiset intersection of the inputs. -/
theorem c_intersection_end_to_end [CastsFit D] (hcipher : Commutes server client serverInputs clientInputs)
    (hmode : client.revealIntersection = server.revealIntersection) (hmalloc : ∀ n, malloc n = true)
    (hcarried : Carried sha256 S build build' pb limit server client fpr numClientInputs serverInputs
      clientInputs .raw) :
    exchange malloc errorOut pb sha256 S build build'
        (psi_client_get_intersection_size malloc errorOut pb sha256 S' build') (some server) (some client) fpr
        numClientInputs serverInputs clientInputs .raw =
      .outputs ((clientInputs : Multiset Bytes) ∩ serverInputs).card ∧
    let answer := exchange malloc errorOut pb sha256 S build build'
      (psi_client_get_intersection malloc errorOut pb sha256 S' build') (some server) (some client) fpr
      numClientInputs serverInputs clientInputs .raw
    if client.revealIntersection then
      ∃ indices, answer = .outputs indices ∧ indices.Nodup ∧
        ∀ i, i ∈ indices ↔ Occurrences.Within clientInputs serverInputs i
    else answer = .failed 3 (if errorOut then
      some "GetIntersection called on PsiClient with reveal_intersection == false" else none) := by
  obtain ⟨elements, helements⟩ := Traversal.exists_mapM_ok_iff.mpr hcipher.encrypt
  have hsetup := PsiServer.createSetupMessage_raw sha256 S build server fpr numClientInputs helements none
  obtain rfl := PsiServer.eq_map_masked helements
  obtain ⟨request, response, hrequest, hresponse, hsize, hanswers⟩ :=
    hcipher.raw_answers sha256 S S' build build' hmode
  have hmessage := PsiServer.setupMessage_raw sha256 S build server fpr numClientInputs helements
  generalize ServerSetup.raw ⟨(sortedRaw S (serverInputs.map server.masked)).encrypted⟩ = setup
    at hsetup hmessage hsize hanswers
  have hfits := PsiServer.createSetupMessage_fits sha256 hsetup
  obtain ⟨setupBytes, hsetupWritten, hsetupSize, hsetupRead⟩ :=
    hpb.serverSetup.carried setup hfits (hcarried.setup setup hmessage)
  obtain ⟨requestBytes, hrequestWritten, hrequestSize, hrequestRead⟩ :=
    hpb.request.carried request trivial (hcarried.request request hrequest)
  obtain ⟨responseBytes, hresponseWritten, hresponseSize, hresponseRead⟩ :=
    hpb.response.carried response trivial (hcarried.response request response hrequest hresponse)
  have hrun {α : Type} (answer : ServerSetup → Response → StatusOr α) :
      libraryExchange malloc pb sha256 S build build' answer server client fpr numClientInputs serverInputs
        clientInputs .raw = answer setup response := by
    simp only [libraryExchange, readInputs, hsetup, hrequest, hresponse, StatusOr.ok_bind, StatusOr.pure_eq,
      writeOutput_of_some hmalloc hsetupWritten, writeOutput_of_some hmalloc hrequestWritten,
      writeOutput_of_some hmalloc hresponseWritten,
      readInput_of_some (hsetupSize.trans_le hpb.serverSetup.limit_le) hsetupRead,
      readInput_of_some (hrequestSize.trans_le hpb.request.limit_le) hrequestRead,
      readInput_of_some (hresponseSize.trans_le hpb.response.limit_le) hresponseRead]
  rw [exchange_size_refines malloc errorOut sha256 S S' build build' hpb,
    exchange_indices_refines malloc errorOut sha256 S S' build build' hpb, hrun, hrun, hsize]
  refine ⟨rfl, ?_⟩
  split <;> rename_i hreveal
  · rw [if_pos hreveal] at hanswers
    obtain ⟨indices, hindices, hnodup, hmem⟩ := hanswers
    refine ⟨indices, ?_, hnodup, hmem⟩
    rw [hindices, StatusOr.ok_bind, copyOut_eq hmalloc]
    rfl
  · rw [if_neg hreveal] at hanswers
    rw [hanswers.2.1, StatusOr.error_bind]
    exact generate_error_eq hmalloc _

/-- libprotobuf, with the messages of one exchange about raw lists. -/
def rawMessages : Protobufs where
  serverSetup := .single (.raw ⟨[[4], [7]]⟩) [0x0A, 0x06, 0x0A, 0x01, 0x04, 0x0A, 0x01, 0x07]
  request := .single ⟨true, [[1], [0], [1]]⟩ [0x08, 0x01, 0x12, 0x01, 0x01, 0x12, 0x01, 0x00, 0x12, 0x01, 0x01]
  response := .single ⟨[[4], [5], [4]]⟩ [0x0A, 0x01, 0x04, 0x0A, 0x01, 0x05, 0x0A, 0x01, 0x04]

theorem rawMessages_lawful : rawMessages.Lawful sizeLimit :=
  ⟨Protobuf.single_lawful (by decide), Protobuf.single_lawful (by decide), Protobuf.single_lawful (by decide)⟩

theorem rawMessages_carried : Carried (fun _ => 0) .insertion .sequential .sequential rawMessages sizeLimit
    ⟨xorCipher 5, true⟩ ⟨xorCipher 3, true⟩ (1 / 2 : ℚ) 3 [[2], [1]] [[2], [3], [2]] .raw where
  setup setup h := by
    cases h
    decide
  request request h := by
    cases h
    decide
  response request response h h' := by
    cases h
    cases h'
    decide

/-- An input that is on both sides, twice on the client's. -/
theorem c_intersection_end_to_end_revealed :
    exchange (fun _ => true) false rawMessages (fun _ => 0) .insertion .sequential .sequential
        (psi_client_get_intersection_size (fun _ => true) false rawMessages (fun _ => 0) .insertion .sequential)
        (some ⟨xorCipher 5, true⟩) (some ⟨xorCipher 3, true⟩) (1 / 2 : ℚ) 3 [[2], [1]] [[2], [3], [2]] .raw =
      .outputs 1 :=
  (c_intersection_end_to_end (fun _ => true) false rawMessages_lawful (fun _ => 0) .insertion .insertion .sequential
    .sequential (1 / 2 : ℚ) 3 (xorCipher_commutes 5 3 true true [[2], [1]] [[2], [3], [2]]) rfl (fun _ => rfl)
    rawMessages_carried).1

end Raw

end CInterface
end PrivateSetIntersection
