import PrivateSetIntersection.Bindings.Codecs
import PrivateSetIntersection.Bindings.Restarts

/-! The other languages' packages: `python`, over the C++ classes, and `go` and `rust`, over
the C functions. Each hands its messages over as bytes and makes its own text of an error. -/
namespace PrivateSetIntersection
open Library

namespace Python

/-- A `str`: code points. A surrogate may be one of them. -/
abbrev Text := List UInt32

/-- How pybind11 takes a list of `str`: each in UTF-8, or it refuses the arguments with a text
of its own. -/
structure Conversion where
  utf8 : Text → Option Bytes
  refusal : String

def Conversion.convert (conversion : Conversion) (inputs : List Text) : Outcome (List Bytes) :=
  match inputs.mapM conversion.utf8 with
  | some converted => .returned converted
  | none => .thrown conversion.refusal

/-- `saveProto`: of a message that cannot be serialized, `SerializeAsString` gives an empty string. -/
def saveProto {M : Type} (pb : Protobuf M) (obj : M) : Bytes := (pb.serializeToArray obj).getD []

def loadProto {M : Type} (pb : Protobuf M) (data : Bytes) : StatusOr M :=
  match pb.parseFromArray data with
  | some obj => .ok obj
  | none => .error (invalidArgumentError "failed to parse proto data")

section Calls
variable (F : CipherFactory) (pb : Protobufs) (codecs : Codecs) (conversion : Conversion) (sha256 : Bytes → Nat)
  (S : ComparisonSort) (build : Build)

namespace Server
variable {D : Type} [DoubleArithmetic D]

def createFromKey (keyBytes : Bytes) (revealIntersection : Bool) : Outcome PsiServer :=
  .ofStatusOr Error.message (PsiServer.createFromKey F keyBytes revealIntersection)

def createSetupMessage (server : PsiServer) (fpr : D) (numClientInputs : Int) (inputs : List Text)
    (ds : DataStructure) : Outcome ServerSetup := do
  let inputs ← conversion.convert inputs
  makeMessage codecs.serverSetup <| .ofStatusOr Error.message do
    let (setup, _) ← server.createSetupMessage sha256 S build fpr numClientInputs inputs ds none
    return saveProto pb.serverSetup setup

def processRequest (server : PsiServer) : Request → Outcome Response :=
  answerMessage codecs.request codecs.response fun intermReq => .ofStatusOr Error.message do
    let request ← loadProto pb.request intermReq
    let response ← server.processRequest S build request
    return saveProto pb.response response

def getPrivateKeyBytes (server : PsiServer) : Outcome Bytes :=
  .ofStatusOr Error.message (server.getPrivateKeyBytes F)

end Server

namespace Client

def createFromKey (keyBytes : Bytes) (revealIntersection : Bool) : Outcome PsiClient :=
  .ofStatusOr Error.message (PsiClient.createFromKey F keyBytes revealIntersection)

def createRequest (client : PsiClient) (data : List Text) : Outcome Request := do
  let inputs ← conversion.convert data
  makeMessage codecs.request <| .ofStatusOr Error.message do
    let request ← client.createRequest build inputs
    return saveProto pb.request request

def answer {α : Type} (call : ServerSetup → Response → StatusOr α) : ServerSetup → Response → Outcome α :=
  answerMessages codecs fun intermServerSetup intermResponse => .ofStatusOr Error.message do
    let setup ← loadProto pb.serverSetup intermServerSetup
    let response ← loadProto pb.response intermResponse
    call setup response

def getIntersection (client : PsiClient) : ServerSetup → Response → Outcome (List Nat) :=
  answer pb codecs (client.getIntersection sha256 S build)

def getIntersectionSize (client : PsiClient) : ServerSetup → Response → Outcome Nat :=
  answer pb codecs (client.getIntersectionSize sha256 S build)

def getPrivateKeyBytes (client : PsiClient) : Outcome Bytes :=
  .ofStatusOr Error.message (client.getPrivateKeyBytes F)

end Client

end Calls

end Python

namespace Go
open CInterface

def errorf (what : String) (rcode : Nat) (err : String) : String := what ++ err ++ "(" ++ toString rcode ++ ")"

def notNull {Party : Type} (created : String) : Option Party → Outcome (Option Party)
  | some party => .returned (some party)
  | none => .thrown (created ++ "Context is NULL. This should never happen")

/-- A handle has no context after `Destroy`. -/
def context {Party : Type} : Option Party → Outcome Party
  | some party => .returned party
  | none => .thrown "invalid context"

/-- `C.GoBytes(out, 32)`, of a buffer of its own length. -/
def keyBytes (key : Bytes) : Outcome Bytes := if 32 ≤ key.length then .returned (key.take 32) else .undefined

section Calls
variable (malloc : Nat → Bool) (F : CipherFactory) (pb : Protobufs) (codecs : Codecs) (sha256 : Bytes → Nat)
  (S : ComparisonSort) (build : Build)

namespace Server
variable {D : Type} [DoubleArithmetic D]

def createFromKey (key : Bytes) (revealIntersection : Bool) : Outcome (Option PsiServer) := do
  let ctx ← .ofReturned (errorf "failed to create server context: ")
    (psi_server_create_from_key malloc true F key revealIntersection)
  notNull "failed to create server context: " ctx

/-- A string is its bytes. -/
def createSetupMessage (server : Option PsiServer) (fpr : D) (inputCount : Int) (rawInput : List Bytes)
    (ds : DataStructure) : Outcome ServerSetup := do
  let ctx ← context server
  makeMessage codecs.serverSetup (.ofReturned (errorf "setup_message failed: ")
    (psi_server_create_setup_message malloc true pb sha256 S build (some ctx) fpr inputCount rawInput ds))

def processRequest (server : Option PsiServer) (requestProto : Request) : Outcome Response := do
  let ctx ← context server
  answerMessage codecs.request codecs.response (fun request => .ofReturned (errorf "process request failed: ")
    (psi_server_process_request malloc true pb S build (some ctx) request)) requestProto

def getPrivateKeyBytes (server : Option PsiServer) : Outcome Bytes := do
  let ctx ← context server
  let out ← .ofReturned (errorf "get private keys failed: ")
    (psi_server_get_private_key_bytes malloc true F (some ctx))
  keyBytes out

end Server

namespace Client

def createFromKey (key : Bytes) (revealIntersection : Bool) : Outcome (Option PsiClient) := do
  let ctx ← .ofReturned (errorf "failed to create client context: ")
    (psi_client_create_from_key malloc true F key revealIntersection)
  notNull "failed to create client context: " ctx

/-- The address of the first input is taken, whether or not there is one. -/
def createRequest (client : Option PsiClient) (rawInput : List Bytes) : Outcome Request := do
  let ctx ← context client
  if rawInput = [] then
    .panicked "runtime error: index out of range [0] with length 0"
  else
    makeMessage codecs.request (.ofReturned (errorf "create request failed ")
      (psi_client_create_request malloc true pb build (some ctx) rawInput))

def getIntersection (client : Option PsiClient) (serverSetupProto : ServerSetup) (serverResponseProto : Response) :
    Outcome (List Nat) := do
  let ctx ← context client
  answerMessages codecs (fun serverSetup serverResponse => .ofReturned (errorf "process response failed: ")
    (psi_client_get_intersection malloc true pb sha256 S build (some ctx) serverSetup serverResponse))
    serverSetupProto serverResponseProto

def getIntersectionSize (client : Option PsiClient) (serverSetupProto : ServerSetup)
    (serverResponseProto : Response) : Outcome Nat := do
  let ctx ← context client
  answerMessages codecs (fun serverSetup serverResponse => .ofReturned (errorf "process response failed: ")
    (psi_client_get_intersection_size malloc true pb sha256 S build (some ctx) serverSetup serverResponse))
    serverSetupProto serverResponseProto

def getPrivateKeyBytes (client : Option PsiClient) : Outcome Bytes := do
  let ctx ← context client
  let out ← .ofReturned (errorf "get private keys failed: ")
    (psi_client_get_private_key_bytes malloc true F (some ctx))
  keyBytes out

end Client

end Calls

end Go

namespace Rust
open CInterface

def getError (msg : String) (resCode : Nat) (errorStr : String) : String :=
  msg ++ ": " ++ errorStr ++ " (" ++ toString resCode ++ ")"

def utf8 (text : String) : Bytes := text.toUTF8.toList

/-- The handle of a client, which knows the mode its context was made in. -/
structure Client where
  ctx : PsiClient
  revealIntersection : Bool
  same : ctx.revealIntersection = revealIntersection

theorem create_from_key_mode {malloc : Nat → Bool} {F : CipherFactory} {key : Bytes} {revealIntersection : Bool}
    {ctx : PsiClient} (h : psi_client_create_from_key malloc true F key revealIntersection = .outputs (some ctx)) :
    ctx.revealIntersection = revealIntersection := by
  obtain ⟨client, hclient, hctx⟩ := StatusOr.bind_eq_ok.mp (answered_eq_outputs.mp h)
  obtain ⟨cipher, -, hmade⟩ := StatusOr.bind_eq_ok.mp hclient
  cases hctx
  cases hmade
  rfl

/-- `assert_eq!(out_len, 32)` -/
def keyBytes (key : Bytes) : Outcome Bytes :=
  if key.length = 32 then .returned key
  else .panicked ("assertion `left == right` failed\n  left: " ++ toString key.length ++ "\n right: 32")

def notNull {Party : Type} (created : String) : Option Party → Outcome Party
  | some party => .returned party
  | none => .thrown (created ++ ": Context is NULL. This should never happen.")

/-- `slice::from_raw_parts` takes no null pointer, even for no elements. -/
def fromRawParts {α : Type} (malloc : Nat → Bool) (size : Nat) (elements : List α) : Outcome (List α) :=
  if malloc (size * elements.length) then .returned elements else .undefined

section Calls
variable (malloc : Nat → Bool) (F : CipherFactory) (pb : Protobufs) (codecs : Codecs) (sha256 : Bytes → Nat)
  (S : ComparisonSort) (build : Build)

namespace Server
variable {D : Type} [DoubleArithmetic D]

def createFromKey (key : Bytes) (revealIntersection : Bool) : Outcome PsiServer := do
  let ctx ← .ofReturned (getError "Failed to create server context")
    (psi_server_create_from_key malloc true F key revealIntersection)
  notNull "Failed to create server context" ctx

/-- `input_count as i64` wraps. -/
def createSetupMessage (ctx : PsiServer) (fpr : D) (inputCount : Nat) (rawInput : List String)
    (ds : Option DataStructure) : Outcome ServerSetup :=
  makeMessage codecs.serverSetup (.ofReturned (getError "Failed to create setup message")
    (psi_server_create_setup_message malloc true pb sha256 S build (some ctx) fpr ((inputCount : Int).bmod (2 ^ 64))
      (rawInput.map utf8) (ds.getD .gcs)))

def processRequest (ctx : PsiServer) : Request → Outcome Response :=
  answerMessage codecs.request codecs.response fun request => .ofReturned (getError "Failed to process request")
    (psi_server_process_request malloc true pb S build (some ctx) request)

def getPrivateKeyBytes (ctx : PsiServer) : Outcome Bytes := do
  let out ← .ofReturned (getError "Failed to get private key bytes")
    (psi_server_get_private_key_bytes malloc true F (some ctx))
  keyBytes out

end Server

namespace Client

def createFromKey (key : Bytes) (revealIntersection : Bool) : Outcome Client :=
  match h : psi_client_create_from_key malloc true F key revealIntersection with
  | .outputs (some ctx) => .returned ⟨ctx, revealIntersection, create_from_key_mode h⟩
  | .outputs none => .thrown "Failed to create client context: Context is NULL. This should never happen."
  | .failed code errorOut => .thrown (getError "Failed to create client context" code (errorOut.getD ""))
  | .undefined => .undefined

/-- But for the mode, a client is made as a server is. -/
theorem createFromKey_ctx (key : Bytes) (revealIntersection : Bool) :
    (createFromKey malloc F key revealIntersection >>= fun client => .returned client.ctx) =
      (.ofReturned (getError "Failed to create client context")
        (psi_client_create_from_key malloc true F key revealIntersection) >>=
        notNull "Failed to create client context") := by
  rw [createFromKey]
  split <;> rename_i hctx
  · rename_i ctx
    change Outcome.returned ctx = _
    rw [hctx]
    rfl
  · rw [hctx]
    rfl
  · rw [hctx]
    rfl
  · rw [hctx]
    rfl

def createRequest (client : Client) (rawInput : List String) : Outcome Request :=
  makeMessage codecs.request (.ofReturned (getError "Failed to create request")
    (psi_client_create_request malloc true pb build (some client.ctx) (rawInput.map utf8)))

def getIntersectionSize (client : Client) (serverSetup : ServerSetup) (responseProto : Response) : Outcome Nat :=
  if client.revealIntersection then .thrown "reveal_intersection must be false!"
  else
    answerMessages codecs (fun setup response => .ofReturned (getError "Failed to get intersection size")
      (psi_client_get_intersection_size malloc true pb sha256 S build (some client.ctx) setup response))
      serverSetup responseProto

def getIntersection (client : Client) (serverSetup : ServerSetup) (responseProto : Response) : Outcome (List Nat) :=
  if ¬ client.revealIntersection then .thrown "reveal_intersection must be true!"
  else
    answerMessages codecs (fun setup response => do
      let out ← .ofReturned (getError "Failed to get intersection")
        (psi_client_get_intersection malloc true pb sha256 S build (some client.ctx) setup response)
      fromRawParts malloc 8 out) serverSetup responseProto

def getPrivateKeyBytes (client : Client) : Outcome Bytes := do
  let out ← .ofReturned (getError "Failed to get private key bytes")
    (psi_client_get_private_key_bytes malloc true F (some client.ctx))
  keyBytes out

end Client

end Calls

end Rust

section Library
variable {pb : Protobufs} {limit : Nat} (hpb : pb.Lawful limit) {codecs : Codecs} {Holds : ServerSetup → Prop}
  (hcodecs : codecs.Conform pb limit Holds) (sha256 : Bytes → Nat) (S : ComparisonSort) (build : Build)
  {D : Type} [DoubleArithmetic D] (server : PsiServer) (client : PsiClient)

namespace Python

theorem saveProto_eq {M : Type} {pb : Protobuf M} {obj : M} {bytes : Bytes} (h : pb.serializeToArray obj = some bytes) :
    saveProto pb obj = bytes := by
  rw [saveProto, h]
  rfl

theorem loadProto_eq {M : Type} {pb : Protobuf M} {data : Bytes} {obj : M} (h : pb.parseFromArray data = some obj) :
    loadProto pb data = .ok obj := by
  rw [loadProto, h]

include hcodecs

section Written
include hpb

theorem Server.makeMessage_setup (fpr : D) (numClientInputs : Int) (inputs : List Bytes) (ds : DataStructure)
    (hsend : ∀ setup, server.setupMessage sha256 S build fpr numClientInputs inputs ds = .ok setup →
      Message.Sendable pb.serverSetup limit Holds setup) :
    makeMessage codecs.serverSetup (.ofStatusOr Error.message do
        let (setup, _) ← server.createSetupMessage sha256 S build fpr numClientInputs inputs ds none
        return saveProto pb.serverSetup setup) =
      .ofStatusOr Error.message (server.setupMessage sha256 S build fpr numClientInputs inputs ds) := by
  rw [← makeMessage_eq Error.message hpb.serverSetup hcodecs.serverSetup
    (fun _ _ hbytes => congrArg StatusOr.ok (saveProto_eq hbytes)) hsend, PsiServer.setupMessage, StatusOr.bind_assoc]
  rfl

theorem Server.processRequest_eq {request : Request} (hrequest : pb.request.byteSizeLong request < limit)
    (hsend : ∀ response, server.processRequest S build request = .ok response →
      pb.response.byteSizeLong response < limit) :
    processRequest pb codecs S build server request =
      .ofStatusOr Error.message (server.processRequest S build request) := by
  refine answerMessage_eq Error.message hpb.response hcodecs.request hcodecs.response
    (fun _ _ hbytes => congrArg StatusOr.ok (saveProto_eq hbytes)) ⟨trivial, hrequest, trivial⟩ ?_ ?_
  · intro bytes _ hparsed
    rw [loadProto_eq hparsed]
    rfl
  · exact fun response h => ⟨trivial, hsend response h, trivial⟩

theorem Client.makeMessage_request (inputs : List Bytes)
    (hsend : ∀ request, client.createRequest build inputs = .ok request → pb.request.byteSizeLong request < limit) :
    makeMessage codecs.request (.ofStatusOr Error.message do
        let request ← client.createRequest build inputs
        return saveProto pb.request request) =
      .ofStatusOr Error.message (client.createRequest build inputs) :=
  makeMessage_eq Error.message hpb.request hcodecs.request
    (fun _ _ hbytes => congrArg StatusOr.ok (saveProto_eq hbytes)) fun request h => ⟨trivial, hsend request h, trivial⟩

end Written

theorem Client.answer_eq {α : Type} (call : ServerSetup → Response → StatusOr α) {setup : ServerSetup}
    {response : Response} (hsetup : Message.Sendable pb.serverSetup limit Holds setup)
    (hresponse : pb.response.byteSizeLong response < limit) :
    answer pb codecs call setup response = .ofStatusOr Error.message (call setup response) := by
  refine answerMessages_eq hcodecs hsetup ⟨trivial, hresponse, trivial⟩ ?_
  intro setupBytes responseBytes _ _ hsetupParsed hresponseParsed
  rw [loadProto_eq hsetupParsed, StatusOr.ok_bind, loadProto_eq hresponseParsed, StatusOr.ok_bind]

end Python

namespace CInterface
variable {malloc : Nat → Bool} (hmalloc : ∀ n, malloc n = true) (text : Nat → String → String)

/-- What a language makes of the library's error, by way of a C function. -/
def errorText (e : Error) : String := text (rawCode e.code) (cString e.message)

include hcodecs hmalloc

section Written
include hpb

theorem makeMessage_setup (fpr : D) (numClientInputs : Int) (inputs : List Bytes) (ds : DataStructure)
    (hsend : ∀ setup, server.setupMessage sha256 S build fpr numClientInputs inputs ds = .ok setup →
      Message.Sendable pb.serverSetup limit Holds setup) :
    makeMessage codecs.serverSetup (.ofReturned text
        (psi_server_create_setup_message malloc true pb sha256 S build (some server) fpr numClientInputs inputs ds)) =
      .ofStatusOr (errorText text) (server.setupMessage sha256 S build fpr numClientInputs inputs ds) := by
  rw [psi_server_create_setup_message, Outcome.ofReturned_answered hmalloc, ← makeMessage_eq _ hpb.serverSetup
    hcodecs.serverSetup (fun _ _ hbytes => writeOutput_of_some hmalloc hbytes) hsend, PsiServer.setupMessage,
    StatusOr.bind_assoc]
  rfl

theorem makeMessage_request (inputs : List Bytes)
    (hsend : ∀ request, client.createRequest build inputs = .ok request → pb.request.byteSizeLong request < limit) :
    makeMessage codecs.request (.ofReturned text
        (psi_client_create_request malloc true pb build (some client) inputs)) =
      .ofStatusOr (errorText text) (client.createRequest build inputs) := by
  rw [psi_client_create_request, Outcome.ofReturned_answered hmalloc]
  exact makeMessage_eq _ hpb.request hcodecs.request (fun _ _ hbytes => writeOutput_of_some hmalloc hbytes)
    fun request h => ⟨trivial, hsend request h, trivial⟩

theorem answerMessage_request {request : Request} (hrequest : pb.request.byteSizeLong request < limit)
    (hsend : ∀ response, server.processRequest S build request = .ok response →
      pb.response.byteSizeLong response < limit) :
    answerMessage codecs.request codecs.response (fun bytes => .ofReturned text
        (psi_server_process_request malloc true pb S build (some server) bytes)) request =
      .ofStatusOr (errorText text) (server.processRequest S build request) := by
  have hwrite : ∀ response bytes, pb.response.serializeToArray response = some bytes →
      writeOutput malloc pb.response "failed to serialize server response" response = .ok bytes :=
    fun _ _ hbytes => writeOutput_of_some hmalloc hbytes
  refine answerMessage_eq _ hpb.response hcodecs.request hcodecs.response hwrite ⟨trivial, hrequest, trivial⟩ ?_ ?_
  · intro bytes hsize hparsed
    rw [psi_server_process_request, Outcome.ofReturned_answered hmalloc, readInput_of_some hsize hparsed,
      StatusOr.ok_bind]
    rfl
  · exact fun response h => ⟨trivial, hsend response h, trivial⟩

end Written

omit hcodecs in
theorem bind_copyOut (result : StatusOr (List Nat)) : (result >>= copyOut malloc) = result := by
  cases result with
  | ok indices => exact copyOut_eq hmalloc indices
  | error e => rfl
  | undefined => rfl

variable {setup : ServerSetup} {response : Response}
  (hsetup : Message.Sendable pb.serverSetup limit Holds setup) (hresponse : pb.response.byteSizeLong response < limit)
include hsetup hresponse

/-- A client's last call on buffers, whatever is done with its answer. -/
theorem answerMessages_answered {α β : Type} (call : ServerSetup → Response → StatusOr α)
    (finish : Outcome α → Outcome β) :
    answerMessages codecs (fun setupBytes responseBytes => finish (.ofReturned text (answered malloc true
        (readInputs pb setupBytes responseBytes >>= fun protos => call protos.1 protos.2)))) setup response =
      finish (.ofStatusOr (errorText text) (call setup response)) := by
  refine answerMessages_eq hcodecs hsetup ⟨trivial, hresponse, trivial⟩ ?_
  intro setupBytes responseBytes hsetupSize hresponseSize hsetupParsed hresponseParsed
  rw [Outcome.ofReturned_answered hmalloc, readInputs, readInput_of_some hsetupSize hsetupParsed, StatusOr.ok_bind,
    readInput_of_some hresponseSize hresponseParsed]
  rfl

end CInterface

namespace Rust

theorem bind_fromRawParts {malloc : Nat → Bool} (hmalloc : ∀ n, malloc n = true) {α : Type} (size : Nat)
    (out : Outcome (List α)) : (out >>= fromRawParts malloc size) = out := by
  cases out with
  | returned elements => exact if_pos (hmalloc _)
  | thrown text => rfl
  | panicked text => rfl
  | undefined => rfl

end Rust

end Library

end PrivateSetIntersection
