import PrivateSetIntersection.Bindings.Parties
import PrivateSetIntersection.Bindings.Wrappers

/-! Two programs, each in any of the languages, that send each other their messages: what an
exchange of theirs ends in is the library's answer, in the words of the language. -/
namespace PrivateSetIntersection
open Library

inductive Call where
  | createSetupMessage | processRequest | createRequest | getIntersectionSize | getIntersection

/-- A language, with the conversion of its strings where that is another library's, and what a
failed parse leaves. -/
inductive Language where
  | javascript (backend : Javascript.Backend) (utf8 : Javascript.Text → Bytes) (leftovers : Javascript.Leftovers)
  | python (build : Build) (utf8 : Python.Text → Option Bytes) (refusal : Call → String)
  | go (build : Build)
  | rust (build : Build)

namespace Language

def build : Language → Build
  | .javascript backend _ _ => backend.build
  | .python build _ _ => build
  | .go build => build
  | .rust build => build

/-- A string. In Go, it is its bytes. -/
def Text : Language → Type
  | .javascript .. => Javascript.Text
  | .python .. => Python.Text
  | .go _ => Bytes
  | .rust _ => String

def convert (call : Call) : (language : Language) → List language.Text → Outcome (List Bytes)
  | .javascript _ utf8 _, inputs => .returned (inputs.map utf8)
  | .python _ utf8 refusal, inputs => Python.Conversion.convert ⟨utf8, refusal call⟩ inputs
  | .go _, inputs => .returned inputs
  | .rust _, inputs => .returned (inputs.map Rust.utf8)

def errorText : Language → Call → Error → String
  | .javascript .., _ => Error.message
  | .python .., _ => Error.message
  | .go _, .createSetupMessage => CInterface.errorText (Go.errorf "setup_message failed: ")
  | .go _, .processRequest => CInterface.errorText (Go.errorf "process request failed: ")
  | .go _, .createRequest => CInterface.errorText (Go.errorf "create request failed ")
  | .go _, .getIntersectionSize => CInterface.errorText (Go.errorf "process response failed: ")
  | .go _, .getIntersection => CInterface.errorText (Go.errorf "process response failed: ")
  | .rust _, .createSetupMessage => CInterface.errorText (Rust.getError "Failed to create setup message")
  | .rust _, .processRequest => CInterface.errorText (Rust.getError "Failed to process request")
  | .rust _, .createRequest => CInterface.errorText (Rust.getError "Failed to create request")
  | .rust _, .getIntersectionSize => CInterface.errorText (Rust.getError "Failed to get intersection size")
  | .rust _, .getIntersection => CInterface.errorText (Rust.getError "Failed to get intersection")

/-- What a language does not pass on to the library: to Go, a request about nothing. -/
def beforeRequest : Language → List Bytes → Outcome Unit
  | .go _, [] => .panicked "runtime error: index out of range [0] with length 0"
  | _, _ => .returned ()

/-- To Rust, the size of an intersection that is revealed. -/
def beforeSize : Language → Bool → Outcome Unit
  | .rust _, true => .thrown "reveal_intersection must be false!"
  | _, _ => .returned ()

/-- And one that is not. Its text is not the library's. -/
def beforeIndices : Language → Bool → Outcome Unit
  | .rust _, false => .thrown "reveal_intersection must be true!"
  | _, _ => .returned ()

def Holds : Language → ServerSetup → Prop
  | .javascript backend _ _ => backend.Holds
  | _ => fun _ => True

theorem holds_raw (language : Language) (info : RawInfo) : language.Holds (.raw info) := by
  cases language with
  | javascript backend utf8 leftovers => exact backend.holds_raw info
  | python build utf8 refusal => trivial
  | go build => trivial
  | rust build => trivial

end Language

structure Program where
  language : Language
  codecs : Codecs
  sort : ComparisonSort
  malloc : Nat → Bool

namespace Program

section Calls
variable (p : Program) (pb : Protobufs) (sha256 : Bytes → Nat)

def createSetupMessage {D : Type} [DoubleArithmetic D] (server : PsiServer) (fpr : D) (numClientInputs : Nat)
    (inputs : List p.language.Text) (ds : DataStructure) : Outcome ServerSetup :=
  match p.language, inputs with
  | .javascript backend utf8 _, inputs => (Javascript.Server.createSetupMessage backend pb p.codecs utf8 sha256 p.sort
      (some server) fpr numClientInputs inputs (some ds) none).1
  | .python build utf8 refusal, inputs => Python.Server.createSetupMessage pb p.codecs
      ⟨utf8, refusal .createSetupMessage⟩ sha256 p.sort build server fpr numClientInputs inputs ds
  | .go build, inputs => Go.Server.createSetupMessage p.malloc pb p.codecs sha256 p.sort build (some server) fpr
      numClientInputs inputs ds
  | .rust build, inputs => Rust.Server.createSetupMessage p.malloc pb p.codecs sha256 p.sort build server fpr
      numClientInputs inputs (some ds)

def processRequest (server : PsiServer) (request : Request) : Outcome Response :=
  match p.language with
  | .javascript backend _ leftovers =>
    Javascript.Server.processRequest backend pb p.codecs leftovers p.sort (some server) request
  | .python build _ _ => Python.Server.processRequest pb p.codecs p.sort build server request
  | .go build => Go.Server.processRequest p.malloc pb p.codecs p.sort build (some server) request
  | .rust build => Rust.Server.processRequest p.malloc pb p.codecs p.sort build server request

def handle (client : PsiClient) : Rust.Client := ⟨client, client.revealIntersection, rfl⟩

def createRequest (client : PsiClient) (inputs : List p.language.Text) : Outcome Request :=
  match p.language, inputs with
  | .javascript backend utf8 _, inputs =>
    Javascript.Client.createRequest backend pb p.codecs utf8 (some client) inputs
  | .python build utf8 refusal, inputs =>
    Python.Client.createRequest pb p.codecs ⟨utf8, refusal .createRequest⟩ build client inputs
  | .go build, inputs => Go.Client.createRequest p.malloc pb p.codecs build (some client) inputs
  | .rust build, inputs => Rust.Client.createRequest p.malloc pb p.codecs build (handle client) inputs

def getIntersectionSize (client : PsiClient) (setup : ServerSetup) (response : Response) : Outcome Int :=
  match p.language with
  | .javascript backend _ leftovers =>
    Javascript.Client.getIntersectionSize backend pb p.codecs leftovers sha256 p.sort (some client) setup response
  | .python build _ _ => do
    let size ← Python.Client.getIntersectionSize pb p.codecs sha256 p.sort build client setup response
    return Int.ofNat size
  | .go build => do
    let size ← Go.Client.getIntersectionSize p.malloc pb p.codecs sha256 p.sort build (some client) setup response
    return Int.ofNat size
  | .rust build => do
    let size ← Rust.Client.getIntersectionSize p.malloc pb p.codecs sha256 p.sort build (handle client) setup response
    return Int.ofNat size

def getIntersection (client : PsiClient) (setup : ServerSetup) (response : Response) : Outcome (List Int) :=
  match p.language with
  | .javascript backend _ leftovers =>
    Javascript.Client.getIntersection backend pb p.codecs leftovers sha256 p.sort (some client) setup response
  | .python build _ _ => do
    let indices ← Python.Client.getIntersection pb p.codecs sha256 p.sort build client setup response
    return numbers indices
  | .go build => do
    let indices ← Go.Client.getIntersection p.malloc pb p.codecs sha256 p.sort build (some client) setup response
    return numbers indices
  | .rust build => do
    let indices ← Rust.Client.getIntersection p.malloc pb p.codecs sha256 p.sort build (handle client) setup response
    return numbers indices

end Calls

/-- The protobuf library conforms, and memory does not run out. -/
structure Equipped (pb : Protobufs) (limit : Nat) (p : Program) : Prop where
  conform : p.codecs.Conform pb limit p.language.Holds
  malloc : ∀ n, p.malloc n = true

section Library
variable {pb : Protobufs} {limit : Nat} (hpb : pb.Lawful limit) {p : Program} (hp : p.Equipped pb limit)
  (sha256 : Bytes → Nat)
include hp

section Written
include hpb

theorem createSetupMessage_eq {D : Type} [DoubleArithmetic D] (server : PsiServer) (fpr : D)
    {numClientInputs : Nat} (hcount : numClientInputs < 2 ^ 32) (inputs : List p.language.Text) (ds : DataStructure)
    (hsend : ∀ converted setup, p.language.convert .createSetupMessage inputs = .returned converted →
      server.setupMessage sha256 p.sort p.language.build fpr numClientInputs converted ds = .ok setup →
      Message.Sendable pb.serverSetup limit p.language.Holds setup) :
    p.createSetupMessage pb sha256 server fpr numClientInputs inputs ds = (do
      let converted ← p.language.convert .createSetupMessage inputs
      .ofStatusOr (p.language.errorText .createSetupMessage)
        (server.setupMessage sha256 p.sort p.language.build fpr numClientInputs converted ds)) := by
  obtain ⟨language, codecs, sort, malloc⟩ := p
  obtain ⟨hconform, hmalloc⟩ := hp
  cases language with
  | javascript backend utf8 leftovers =>
    have hint : 0 ≤ (numClientInputs : Int) ∧ (numClientInputs : Int) < 2 ^ 32 := by omega
    exact congrArg Prod.fst (Javascript.Server.createSetupMessage_eq backend hpb utf8 sha256 sort hconform server fpr
      hint inputs (some ds) fun setup => hsend _ setup rfl)
  | python build utf8 refusal =>
    dsimp only [createSetupMessage, Python.Server.createSetupMessage, Language.convert] at hsend ⊢
    cases hinputs : Python.Conversion.convert ⟨utf8, refusal .createSetupMessage⟩ inputs with
    | returned converted =>
      exact Python.Server.makeMessage_setup hpb hconform sha256 sort build server fpr numClientInputs converted ds
        fun setup => hsend converted setup hinputs
    | thrown text => rfl
    | panicked text => rfl
    | undefined => rfl
  | go build =>
    exact CInterface.makeMessage_setup hpb hconform sha256 sort build server hmalloc _ fpr numClientInputs inputs ds
      fun setup => hsend inputs setup rfl
  | rust build =>
    have hwraps : (numClientInputs : Int).bmod (2 ^ 64) = numClientInputs := by
      rw [Int.bmod_def]
      omega
    dsimp only [createSetupMessage, Rust.Server.createSetupMessage, Option.getD_some]
    rw [hwraps]
    exact CInterface.makeMessage_setup hpb hconform sha256 sort build server hmalloc _ fpr numClientInputs
      (inputs.map Rust.utf8) ds fun setup => hsend _ setup rfl

theorem processRequest_eq (server : PsiServer) {request : Request} (hrequest : pb.request.byteSizeLong request < limit)
    (hsend : ∀ response, server.processRequest p.sort p.language.build request = .ok response →
      pb.response.byteSizeLong response < limit) :
    p.processRequest pb server request =
      .ofStatusOr (p.language.errorText .processRequest)
        (server.processRequest p.sort p.language.build request) := by
  obtain ⟨language, codecs, sort, malloc⟩ := p
  obtain ⟨hconform, hmalloc⟩ := hp
  cases language with
  | javascript backend utf8 leftovers =>
    exact Javascript.Server.processRequest_eq backend hpb leftovers sort hconform server hrequest hsend
  | python build utf8 refusal =>
    exact Python.Server.processRequest_eq hpb hconform sort build server hrequest hsend
  | go build => exact CInterface.answerMessage_request hpb hconform sort build server hmalloc _ hrequest hsend
  | rust build => exact CInterface.answerMessage_request hpb hconform sort build server hmalloc _ hrequest hsend

theorem createRequest_eq (client : PsiClient) (inputs : List p.language.Text)
    (hsend : ∀ converted request, p.language.convert .createRequest inputs = .returned converted →
      client.createRequest p.language.build converted = .ok request → pb.request.byteSizeLong request < limit) :
    p.createRequest pb client inputs = (do
      let converted ← p.language.convert .createRequest inputs
      p.language.beforeRequest converted
      .ofStatusOr (p.language.errorText .createRequest) (client.createRequest p.language.build converted)) := by
  obtain ⟨language, codecs, sort, malloc⟩ := p
  obtain ⟨hconform, hmalloc⟩ := hp
  cases language with
  | javascript backend utf8 leftovers =>
    exact Javascript.Client.createRequest_eq backend hpb utf8 hconform client inputs
      fun request => hsend _ request rfl
  | python build utf8 refusal =>
    dsimp only [createRequest, Python.Client.createRequest, Language.convert] at hsend ⊢
    cases hinputs : Python.Conversion.convert ⟨utf8, refusal .createRequest⟩ inputs with
    | returned converted =>
      exact Python.Client.makeMessage_request hpb hconform build client converted
        fun request => hsend converted request hinputs
    | thrown text => rfl
    | panicked text => rfl
    | undefined => rfl
  | go build =>
    cases inputs with
    | nil => rfl
    | cons x inputs =>
      exact CInterface.makeMessage_request hpb hconform build client hmalloc _ (x :: inputs)
        fun request => hsend (x :: inputs) request rfl
  | rust build =>
    exact CInterface.makeMessage_request hpb hconform build client hmalloc _ (inputs.map Rust.utf8)
      fun request => hsend _ request rfl

end Written

variable (client : PsiClient) {setup : ServerSetup} {response : Response}
  (hsetup : Message.Sendable pb.serverSetup limit p.language.Holds setup)
  (hresponse : pb.response.byteSizeLong response < limit)
include hpb hsetup hresponse

theorem getIntersectionSize_eq :
    p.getIntersectionSize pb sha256 client setup response = (do
      p.language.beforeSize client.revealIntersection
      let size ← .ofStatusOr (p.language.errorText .getIntersectionSize)
        (client.getIntersectionSize sha256 p.sort p.language.build setup response)
      return Int.ofNat size) := by
  obtain ⟨language, codecs, sort, malloc⟩ := p
  obtain ⟨hconform, hmalloc⟩ := hp
  cases language with
  | javascript backend utf8 leftovers =>
    refine (Javascript.Client.getIntersectionSize_eq backend hpb leftovers sha256 sort hconform client hsetup
      hresponse).trans ?_
    exact Outcome.ofStatusOr_bind_ok _ _ _
  | python build utf8 refusal =>
    dsimp only [getIntersectionSize, Python.Client.getIntersectionSize]
    rw [Python.Client.answer_eq hconform _ hsetup hresponse]
    rfl
  | go build =>
    have hanswer := CInterface.answerMessages_answered hconform hmalloc (Go.errorf "process response failed: ") hsetup
      hresponse (client.getIntersectionSize sha256 sort build) fun out => out
    exact congrArg (fun out => out >>= fun size => .returned (Int.ofNat size)) hanswer
  | rust build =>
    have hanswer := CInterface.answerMessages_answered hconform hmalloc (Rust.getError "Failed to get intersection size")
      hsetup hresponse (client.getIntersectionSize sha256 sort build) fun out => out
    dsimp only [getIntersectionSize, Rust.Client.getIntersectionSize, handle]
    by_cases hreveal : client.revealIntersection = true
    · rw [if_pos hreveal, hreveal]
      rfl
    · rw [if_neg hreveal, Bool.eq_false_iff.mpr hreveal]
      exact congrArg (fun out => out >>= fun size => .returned (Int.ofNat size)) hanswer

theorem getIntersection_eq :
    p.getIntersection pb sha256 client setup response = (do
      p.language.beforeIndices client.revealIntersection
      let indices ← .ofStatusOr (p.language.errorText .getIntersection)
        (client.getIntersection sha256 p.sort p.language.build setup response)
      return numbers indices) := by
  obtain ⟨language, codecs, sort, malloc⟩ := p
  obtain ⟨hconform, hmalloc⟩ := hp
  -- What the C function copies out, the library gave.
  have hcopied (build : Build) : (client.getIntersection sha256 sort build setup response >>=
      CInterface.copyOut malloc) = client.getIntersection sha256 sort build setup response :=
    CInterface.bind_copyOut hmalloc _
  cases language with
  | javascript backend utf8 leftovers =>
    refine (Javascript.Client.getIntersection_eq backend hpb leftovers sha256 sort hconform client hsetup
      hresponse).trans ?_
    exact Outcome.ofStatusOr_bind_ok _ _ _
  | python build utf8 refusal =>
    dsimp only [getIntersection, Python.Client.getIntersection]
    rw [Python.Client.answer_eq hconform _ hsetup hresponse]
    rfl
  | go build =>
    have hanswer := CInterface.answerMessages_answered hconform hmalloc (Go.errorf "process response failed: ") hsetup
      hresponse (fun setup response => client.getIntersection sha256 sort build setup response >>=
        CInterface.copyOut malloc) fun out => out
    dsimp only at hanswer
    rw [hcopied] at hanswer
    exact congrArg (fun out => out >>= fun indices => .returned (numbers indices)) hanswer
  | rust build =>
    have hanswer := CInterface.answerMessages_answered hconform hmalloc (Rust.getError "Failed to get intersection")
      hsetup hresponse (fun setup response => client.getIntersection sha256 sort build setup response >>=
        CInterface.copyOut malloc) fun out => out >>= Rust.fromRawParts malloc 8
    dsimp only at hanswer
    rw [hcopied, Rust.bind_fromRawParts hmalloc] at hanswer
    dsimp only [getIntersection, Rust.Client.getIntersection, handle]
    by_cases hreveal : client.revealIntersection = true
    · rw [if_neg (not_not.mpr hreveal), hreveal]
      exact congrArg (fun out => out >>= fun indices => .returned (numbers indices)) hanswer
    · rw [if_pos hreveal, Bool.eq_false_iff.mpr hreveal]
      rfl

end Library

/-- What the server's program writes the client's reads, and the other way round. -/
structure Talks (pb : Protobufs) (limit : Nat) (p p' : Program) : Prop where
  serverSetup : Understands pb.serverSetup limit (fun setup => p.language.Holds setup ∧ p'.language.Holds setup)
    p.codecs.serverSetup p'.codecs.serverSetup
  request : Understands pb.request limit (fun _ => True) p'.codecs.request p.codecs.request
  response : Understands pb.response limit (fun _ => True) p.codecs.response p'.codecs.response

def transport {M : Type} (writer reader : Codec M) (m : M) : Outcome M := do
  let bytes ← .ofExcept (writer.encode m)
  .ofExcept (reader.decode bytes)

theorem transport_eq {M : Type} [Message M] {pb : Protobuf M} {limit : Nat} {Holds : M → Prop}
    {writer reader : Codec M} (h : Understands pb limit Holds writer reader) {m : M}
    (hm : Message.Sendable pb limit Holds m) : transport writer reader m = .returned m := by
  obtain ⟨bytes, hbytes, hdecoded⟩ := h m hm
  rw [transport, hbytes, Outcome.ofExcept_ok, Outcome.returned_bind, hdecoded, Outcome.ofExcept_ok]

section Exchange
variable {D : Type} [DoubleArithmetic D] (p p' : Program) (pb : Protobufs) (limit : Nat) (sha256 : Bytes → Nat)

def exchange {α : Type} (answer : ServerSetup → Response → Outcome α) (server : PsiServer) (client : PsiClient)
    (fpr : D) (numClientInputs : Nat) (serverInputs : List p.language.Text) (clientInputs : List p'.language.Text)
    (ds : DataStructure) : Outcome α := do
  let setup ← p.createSetupMessage pb sha256 server fpr numClientInputs serverInputs ds
  let setup ← transport p.codecs.serverSetup p'.codecs.serverSetup setup
  let request ← p'.createRequest pb client clientInputs
  let request ← transport p'.codecs.request p.codecs.request request
  let response ← p.processRequest pb server request
  let response ← transport p.codecs.response p'.codecs.response response
  answer setup response

/-- The library's calls on the bytes that the strings are converted to, with what the languages
make of its errors. -/
def libraryExchange {α : Type} (answer : ServerSetup → Response → Outcome α) (server : PsiServer)
    (client : PsiClient) (fpr : D) (numClientInputs : Nat) (serverInputs : List p.language.Text)
    (clientInputs : List p'.language.Text) (ds : DataStructure) : Outcome α := do
  let serverInputs ← p.language.convert .createSetupMessage serverInputs
  let setup ← .ofStatusOr (p.language.errorText .createSetupMessage)
    (server.setupMessage sha256 p.sort p.language.build fpr numClientInputs serverInputs ds)
  let clientInputs ← p'.language.convert .createRequest clientInputs
  p'.language.beforeRequest clientInputs
  let request ← .ofStatusOr (p'.language.errorText .createRequest)
    (client.createRequest p'.language.build clientInputs)
  let response ← .ofStatusOr (p.language.errorText .processRequest)
    (server.processRequest p.sort p.language.build request)
  answer setup response

/-- The messages of an exchange are below the limit, and both sides can be given its setup. -/
structure Delivered (server : PsiServer) (client : PsiClient) (fpr : D) (numClientInputs : Nat)
    (serverInputs : List p.language.Text) (clientInputs : List p'.language.Text) (ds : DataStructure) : Prop where
  setup : ∀ inputs setup, p.language.convert .createSetupMessage serverInputs = .returned inputs →
    server.setupMessage sha256 p.sort p.language.build fpr numClientInputs inputs ds = .ok setup →
    pb.serverSetup.byteSizeLong setup < limit ∧ p.language.Holds setup ∧ p'.language.Holds setup
  request : ∀ inputs request, p'.language.convert .createRequest clientInputs = .returned inputs →
    client.createRequest p'.language.build inputs = .ok request → pb.request.byteSizeLong request < limit
  response : ∀ inputs request response, p'.language.convert .createRequest clientInputs = .returned inputs →
    client.createRequest p'.language.build inputs = .ok request →
    server.processRequest p.sort p.language.build request = .ok response →
    pb.response.byteSizeLong response < limit

variable {p p' pb limit sha256} (hpb : pb.Lawful limit) (hp : p.Equipped pb limit) (hp' : p'.Equipped pb limit)
  (htalk : p.Talks pb limit p') {server : PsiServer} {client : PsiClient} {fpr : D} {numClientInputs : Nat}
  (hcount : numClientInputs < 2 ^ 32) {serverInputs : List p.language.Text} {clientInputs : List p'.language.Text}
  {ds : DataStructure}
include hpb hp hp' htalk hcount

/-- Nothing is lost between the two programs. -/
theorem exchange_eq [CastsFit D] {α : Type} {answer answer' : ServerSetup → Response → Outcome α}
    (hdelivered : Delivered p p' pb limit sha256 server client fpr numClientInputs serverInputs clientInputs ds)
    (hanswer : ∀ setup response, Message.Sendable pb.serverSetup limit p'.language.Holds setup →
      pb.response.byteSizeLong response < limit → answer setup response = answer' setup response) :
    exchange p p' pb sha256 answer server client fpr numClientInputs serverInputs clientInputs ds =
      libraryExchange p p' sha256 answer' server client fpr numClientInputs serverInputs clientInputs ds := by
  have hmade := createSetupMessage_eq hpb hp sha256 server fpr hcount serverInputs ds fun inputs setup h h' =>
    ⟨PsiServer.setupMessage_fits sha256 h', (hdelivered.setup inputs setup h h').1,
      (hdelivered.setup inputs setup h h').2.1⟩
  have hasked := createRequest_eq hpb hp' client clientInputs hdelivered.request
  rw [exchange, libraryExchange, hmade, Outcome.bind_assoc]
  refine Outcome.bind_congr fun inputs hinputs => ?_
  refine Outcome.ofStatusOr_bind_congr fun setup hsetup => ?_
  obtain ⟨hsetupSize, hholds, hholds'⟩ := hdelivered.setup inputs setup hinputs hsetup
  have hfits := PsiServer.setupMessage_fits sha256 hsetup
  rw [transport_eq htalk.serverSetup ⟨hfits, hsetupSize, hholds, hholds'⟩, Outcome.returned_bind, hasked,
    Outcome.bind_assoc]
  refine Outcome.bind_congr fun inputs' hinputs' => ?_
  rw [Outcome.bind_assoc]
  refine Outcome.bind_congr fun _ _ => ?_
  refine Outcome.ofStatusOr_bind_congr fun request hrequest => ?_
  have hrequestSize := hdelivered.request inputs' request hinputs' hrequest
  rw [transport_eq htalk.request ⟨trivial, hrequestSize, trivial⟩, Outcome.returned_bind,
    processRequest_eq hpb hp server hrequestSize fun response =>
      hdelivered.response inputs' request response hinputs' hrequest]
  refine Outcome.ofStatusOr_bind_congr fun response hresponse => ?_
  have hresponseSize := hdelivered.response inputs' request response hinputs' hrequest hresponse
  rw [transport_eq htalk.response ⟨trivial, hresponseSize, trivial⟩, Outcome.returned_bind]
  exact hanswer setup response ⟨hfits, hsetupSize, hholds'⟩ hresponseSize

end Exchange
/-- Programs whose protobuf library is the C++ one conform, and understand each other. -/
def plain (pb : Protobufs) (language : Language) : Program where
  language := language
  codecs := .cpp pb
  sort := .insertion
  malloc _ := true

section Plain
variable {pb : Protobufs} {limit : Nat} (hpb : pb.Lawful limit)
include hpb

theorem plain_equipped (language : Language) : (plain pb language).Equipped pb limit :=
  ⟨Codecs.cpp_conform hpb _, fun _ => rfl⟩

theorem plain_talks (language language' : Language) : (plain pb language).Talks pb limit (plain pb language') :=
  ⟨Codec.cpp_understands _ hpb.serverSetup, Codec.cpp_understands _ hpb.request, Codec.cpp_understands _ hpb.response⟩

end Plain

section EndToEnd
variable {D : Type} [DoubleArithmetic D] [CastsFit D] {p p' : Program} {pb : Protobufs} {limit : Nat}
  (hpb : pb.Lawful limit) (sha256 : Bytes → Nat) (hp : p.Equipped pb limit) (hp' : p'.Equipped pb limit)
  (htalk : p.Talks pb limit p') {server : PsiServer} {client : PsiClient} (fpr : D) {numClientInputs : Nat}
  (hcount : numClientInputs < 2 ^ 32) {serverInputs : List p.language.Text} {clientInputs : List p'.language.Text}
  {serverBytes clientBytes : List Bytes}
  (hserverBytes : p.language.convert .createSetupMessage serverInputs = .returned serverBytes)
  (hclientBytes : p'.language.convert .createRequest clientInputs = .returned clientBytes)
include hpb hp hp' htalk hcount hserverBytes hclientBytes

/-- Two programs about raw lists end in the multiset intersection of the bytes that their
strings are converted to, and, if it is revealed, in its indices, unless the client's language
refuses to ask. -/
theorem languages_end_to_end (hcipher : Commutes server client serverBytes clientBytes)
    (hmode : client.revealIntersection = server.revealIntersection)
    (hcarried : Carried sha256 p.sort p.language.build p'.language.build pb limit server client fpr numClientInputs
      serverBytes clientBytes .raw) :
    exchange p p' pb sha256 (p'.getIntersectionSize pb sha256 client) server client fpr numClientInputs serverInputs
        clientInputs .raw = (do
      p'.language.beforeRequest clientBytes
      p'.language.beforeSize client.revealIntersection
      return (((clientBytes : Multiset Bytes) ∩ serverBytes).card : Int)) ∧
    let indices := exchange p p' pb sha256 (p'.getIntersection pb sha256 client) server client fpr numClientInputs
      serverInputs clientInputs .raw
    if client.revealIntersection then
      ∃ found, indices = (do
          p'.language.beforeRequest clientBytes
          return numbers found) ∧ found.Nodup ∧ ∀ i, i ∈ found ↔ Occurrences.Within clientBytes serverBytes i
    else indices = (do
      p'.language.beforeRequest clientBytes
      p'.language.beforeIndices false
      .thrown (p'.language.errorText .getIntersection (invalidArgumentError
        "GetIntersection called on PsiClient with reveal_intersection == false"))) := by
  obtain ⟨elements, helements⟩ := Traversal.exists_mapM_ok_iff.mpr hcipher.encrypt
  have hsetup := PsiServer.setupMessage_raw sha256 p.sort p.language.build server fpr numClientInputs helements
  obtain rfl := PsiServer.eq_map_masked helements
  obtain ⟨request, response, hrequest, hresponse, hsize, hanswers⟩ :=
    hcipher.raw_answers sha256 p.sort p'.sort p.language.build p'.language.build hmode
  have hdelivered : Delivered p p' pb limit sha256 server client fpr numClientInputs serverInputs clientInputs
      .raw := by
    refine ⟨fun inputs setup h hmade => ?_, fun inputs request h hmade => ?_,
      fun inputs request response h hmade hanswered => ?_⟩
    · obtain rfl := Outcome.returned.inj (hserverBytes.symm.trans h)
      obtain rfl := StatusOr.ok.inj (hsetup.symm.trans hmade)
      exact ⟨hcarried.setup _ hsetup, p.language.holds_raw _, p'.language.holds_raw _⟩
    · obtain rfl := Outcome.returned.inj (hclientBytes.symm.trans h)
      exact hcarried.request request hmade
    · obtain rfl := Outcome.returned.inj (hclientBytes.symm.trans h)
      exact hcarried.response request response hmade hanswered
  have hrun {α : Type} (answer : ServerSetup → Response → Outcome α) :
      libraryExchange p p' sha256 answer server client fpr numClientInputs serverInputs clientInputs .raw = (do
        p'.language.beforeRequest clientBytes
        answer (.raw ⟨(sortedRaw p.sort (serverBytes.map server.masked)).encrypted⟩) response) := by
    rw [libraryExchange, hserverBytes, Outcome.returned_bind, hsetup, hclientBytes]
    simp only [Outcome.ofStatusOr_ok, Outcome.returned_bind, hrequest, hresponse]
  rw [exchange_eq hpb hp hp' htalk hcount hdelivered fun _ _ => getIntersectionSize_eq hpb hp' sha256 client,
    exchange_eq hpb hp hp' htalk hcount hdelivered fun _ _ => getIntersection_eq hpb hp' sha256 client, hrun, hrun,
    hsize]
  refine ⟨rfl, ?_⟩
  split <;> rename_i hreveal
  · rw [if_pos hreveal] at hanswers
    obtain ⟨found, hfound, hnodup, hmem⟩ := hanswers
    refine ⟨found, ?_, hnodup, hmem⟩
    have hasked : p'.language.beforeIndices true = .returned () := by
      cases p'.language <;> rfl
    rw [hfound, hreveal, hasked]
    rfl
  · rw [if_neg hreveal] at hanswers
    rw [hanswers.2.1, Bool.eq_false_iff.mpr hreveal]
    rfl

omit hpb hp hp' htalk hcount hserverBytes hclientBytes in
/-- A server in the browser and a client in Python, with strings of ASCII and a repeat. -/
theorem languages_end_to_end_repeated :
    let ascii : Python.Text → Option Bytes := fun text =>
      if text.all fun c => c < 128 then some (text.map UInt32.toUInt8) else none
    let leftovers : Javascript.Leftovers := ⟨fun _ => .dataStructureNotSet, fun _ => {}, fun _ => {}⟩
    let browser := plain CInterface.rawMessages (.javascript .wasm (List.map UInt16.toUInt8) leftovers)
    let python := plain CInterface.rawMessages (.python .sequential ascii fun _ => "incompatible function arguments")
    exchange browser python CInterface.rawMessages (fun _ => 0)
        (python.getIntersectionSize CInterface.rawMessages (fun _ => 0) ⟨xorCipher 3, true⟩) ⟨xorCipher 5, true⟩
        ⟨xorCipher 3, true⟩ (1 / 2 : ℚ) 3 [[2], [1]] [[2], [3], [2]] .raw = .returned 1 := by
  intro ascii leftovers browser python
  have hpb := CInterface.rawMessages_lawful
  have hcarried : Carried (fun _ => 0) browser.sort browser.language.build python.language.build
      CInterface.rawMessages sizeLimit ⟨xorCipher 5, true⟩ ⟨xorCipher 3, true⟩ (1 / 2 : ℚ) (3 : Nat) [[2], [1]]
      [[2], [3], [2]] .raw := CInterface.rawMessages_carried
  exact (@languages_end_to_end ℚ _ _ browser python _ _ hpb (fun _ => 0) (plain_equipped hpb _) (plain_equipped hpb _)
    (plain_talks hpb _ _) _ _ (1 / 2 : ℚ) 3 (by decide) [[2], [1]] [[2], [3], [2]] [[2], [1]] [[2], [3], [2]] rfl rfl
    (xorCipher_commutes 5 3 true true _ _) rfl hcarried).1

end EndToEnd

section Keys
variable (F : CipherFactory)

def serverKey (p : Program) (server : PsiServer) : Outcome Bytes :=
  match p.language with
  | .javascript .. => Javascript.Server.getPrivateKeyBytes F (some server)
  | .python .. => Python.Server.getPrivateKeyBytes F server
  | .go _ => Go.Server.getPrivateKeyBytes p.malloc F (some server)
  | .rust _ => Rust.Server.getPrivateKeyBytes p.malloc F server

def serverFromKey (p : Program) (key : Bytes) (revealIntersection : Bool) : Outcome PsiServer :=
  match p.language with
  | .javascript .. => Javascript.Server.createFromKey F key revealIntersection >>= Javascript.live
  | .python .. => Python.Server.createFromKey F key revealIntersection
  | .go _ => Go.Server.createFromKey p.malloc F key revealIntersection >>= Go.context
  | .rust _ => Rust.Server.createFromKey p.malloc F key revealIntersection

def clientKey (p : Program) (client : PsiClient) : Outcome Bytes :=
  match p.language with
  | .javascript .. => Javascript.Client.getPrivateKeyBytes F (some client)
  | .python .. => Python.Client.getPrivateKeyBytes F client
  | .go _ => Go.Client.getPrivateKeyBytes p.malloc F (some client)
  | .rust _ => Rust.Client.getPrivateKeyBytes p.malloc F (handle client)

def clientFromKey (p : Program) (key : Bytes) (revealIntersection : Bool) : Outcome PsiClient :=
  match p.language with
  | .javascript .. => Javascript.Client.createFromKey F key revealIntersection >>= Javascript.live
  | .python .. => Python.Client.createFromKey F key revealIntersection
  | .go _ => Go.Client.createFromKey p.malloc F key revealIntersection >>= Go.context
  | .rust _ => do
    let client ← Rust.Client.createFromKey p.malloc F key revealIntersection
    return client.ctx

/-- A server that goes from program to program by its key. -/
def serverTravels (p : Program) (server : PsiServer) : List Program → Outcome PsiServer
  | [] => .returned server
  | next :: path => do
    let key ← p.serverKey F server
    let server ← next.serverFromKey F key server.revealIntersection
    serverTravels next server path

def clientTravels (p : Program) (client : PsiClient) : List Program → Outcome PsiClient
  | [] => .returned client
  | next :: path => do
    let key ← p.clientKey F client
    let client ← next.clientFromKey F key client.revealIntersection
    clientTravels next client path

def keyOf (p : Program) (cipher : ECCommutativeCipher) : Outcome Bytes :=
  let copied := CInterface.answered p.malloc true (F.paddedKey cipher >>= CInterface.copyKey p.malloc)
  match p.language with
  | .javascript .. => .ofStatusOr Error.message (F.paddedKey cipher)
  | .python .. => .ofStatusOr Error.message (F.paddedKey cipher)
  | .go _ => .ofReturned (Go.errorf "get private keys failed: ") copied >>= Go.keyBytes
  | .rust _ => .ofReturned (Rust.getError "Failed to get private key bytes") copied >>= Rust.keyBytes

theorem serverKey_eq (p : Program) (server : PsiServer) : p.serverKey F server = p.keyOf F server.ecCipher := by
  obtain ⟨language, codecs, sort, malloc⟩ := p
  cases language <;> rfl

theorem clientKey_eq (p : Program) (client : PsiClient) : p.clientKey F client = p.keyOf F client.ecCipher := by
  obtain ⟨language, codecs, sort, malloc⟩ := p
  cases language <;> rfl

/-- A party of either kind as a program makes it, with Go's and Rust's texts. -/
def fromKey {Party : Type} (p : Program) (made : StatusOr Party) (go rust : String) : Outcome Party :=
  let ctx := CInterface.answered p.malloc true (made >>= fun party => .ok (some party))
  match p.language with
  | .javascript .. => .ofStatusOr Error.message (some <$> made) >>= Javascript.live
  | .python .. => .ofStatusOr Error.message made
  | .go _ => .ofReturned (Go.errorf go) ctx >>= Go.notNull go >>= Go.context
  | .rust _ => .ofReturned (Rust.getError rust) ctx >>= Rust.notNull rust

theorem serverFromKey_eq (p : Program) (key : Bytes) (revealIntersection : Bool) :
    p.serverFromKey F key revealIntersection = p.fromKey (PsiServer.createFromKey F key revealIntersection)
      "failed to create server context: " "Failed to create server context" := by
  obtain ⟨language, codecs, sort, malloc⟩ := p
  cases language <;> rfl

theorem clientFromKey_eq (p : Program) (key : Bytes) (revealIntersection : Bool) :
    p.clientFromKey F key revealIntersection = p.fromKey (PsiClient.createFromKey F key revealIntersection)
      "failed to create client context: " "Failed to create client context" := by
  obtain ⟨language, codecs, sort, malloc⟩ := p
  cases language with
  | javascript backend utf8 leftovers => rfl
  | python build utf8 refusal => rfl
  | go build => rfl
  | rust build => exact Rust.Client.createFromKey_ctx malloc F key revealIntersection

theorem fromKey_ok {Party : Type} (p : Program) (party : Party) (go rust : String) :
    p.fromKey (.ok party) go rust = .returned party := by
  obtain ⟨language, codecs, sort, malloc⟩ := p
  cases language <;> rfl

variable {F} (hF : F.Lawful)
include hF

theorem keyOf_made {p : Program} (hmalloc : ∀ n, p.malloc n = true) {cipher : ECCommutativeCipher}
    (h : F.Made cipher) :
    ∃ key, p.keyOf F cipher = .returned key ∧
      BigEndian.value key = BigEndian.value (F.getPrivateKeyBytes cipher) := by
  obtain ⟨key, hpadded, hlength, hvalue⟩ := h.paddedKey hF
  refine ⟨key, ?_, hvalue⟩
  have hcopied := CInterface.copyKey_ok (hmalloc 32) hlength
  obtain ⟨language, codecs, sort, malloc⟩ := p
  dsimp only [keyOf] at hcopied ⊢
  rw [hpadded, StatusOr.ok_bind, hcopied]
  cases language with
  | javascript backend utf8 leftovers => rfl
  | python build utf8 refusal => rfl
  | go build =>
    have htaken : key.take 32 = key := List.take_of_length_le hlength.le
    exact (if_pos hlength.ge).trans (congrArg Outcome.returned htaken)
  | rust build => exact if_pos hlength

theorem serverFromKey_made (p : Program) {server : PsiServer} (h : F.Made server.ecCipher) {key : Bytes}
    (hkey : BigEndian.value key = BigEndian.value (F.getPrivateKeyBytes server.ecCipher)) :
    p.serverFromKey F key server.revealIntersection = .returned server := by
  rw [serverFromKey_eq, PsiServer.createFromKey, h.createFromKey hF hkey]
  exact p.fromKey_ok server _ _

theorem clientFromKey_made (p : Program) {client : PsiClient} (h : F.Made client.ecCipher) {key : Bytes}
    (hkey : BigEndian.value key = BigEndian.value (F.getPrivateKeyBytes client.ecCipher)) :
    p.clientFromKey F key client.revealIntersection = .returned client := by
  rw [clientFromKey_eq, PsiClient.createFromKey, h.createFromKey hF hkey]
  exact p.fromKey_ok client _ _

/-- A party is the same wherever its key has been: exported from one program and taken up by
the next, along any path of programs in any languages. -/
theorem keys_travel_between_languages (p : Program) (path : List Program) (hmalloc : ∀ n, p.malloc n = true)
    (hpath : ∀ next ∈ path, ∀ n, next.malloc n = true) {server : PsiServer} {client : PsiClient}
    (hserver : server.Made F) (hclient : client.Made F) :
    p.serverTravels F server path = .returned server ∧ p.clientTravels F client path = .returned client := by
  rw [PsiServer.made_iff] at hserver
  rw [PsiClient.made_iff] at hclient
  induction path generalizing p with
  | nil => exact ⟨rfl, rfl⟩
  | cons next path ih =>
    obtain ⟨key, hkey, hvalue⟩ := keyOf_made hF hmalloc hserver
    obtain ⟨key', hkey', hvalue'⟩ := keyOf_made hF hmalloc hclient
    rw [List.forall_mem_cons] at hpath
    obtain ⟨hservers, hclients⟩ := ih next hpath.1 hpath.2
    constructor
    · rw [serverTravels, serverKey_eq, hkey, Outcome.returned_bind,
        serverFromKey_made hF next hserver hvalue, Outcome.returned_bind, hservers]
    · rw [clientTravels, clientKey_eq, hkey', Outcome.returned_bind,
        clientFromKey_made hF next hclient hvalue', Outcome.returned_bind, hclients]

omit hF in
/-- From Go through Rust and the browser to Python. -/
theorem keys_travel_between_languages_thrice :
    let program := plain CInterface.rawMessages
    let leftovers : Javascript.Leftovers := ⟨fun _ => .dataStructureNotSet, fun _ => {}, fun _ => {}⟩
    let path := [program (.rust .sequential), program (.javascript .wasm (List.map UInt16.toUInt8) leftovers),
      program (.python .sequential (fun _ => none) fun _ => "incompatible function arguments")]
    (program (.go .sequential)).serverTravels CInterface.pointFactory ⟨pointCipher 5, false⟩ path =
        .returned ⟨pointCipher 5, false⟩ ∧
      (program (.go .sequential)).clientTravels CInterface.pointFactory ⟨pointCipher 3, true⟩ path =
        .returned ⟨pointCipher 3, true⟩ := by
  intro program leftovers path
  have hpath : ∀ next ∈ path, ∀ n, next.malloc n = true := by
    rw [List.forall_mem_cons, List.forall_mem_cons, List.forall_mem_singleton]
    exact ⟨fun _ => rfl, fun _ => rfl, fun _ => rfl⟩
  exact @keys_travel_between_languages CInterface.pointFactory CInterface.pointFactory_lawful
    (program (.go .sequential)) path (fun _ => rfl) hpath ⟨pointCipher 5, false⟩ ⟨pointCipher 3, true⟩
    (.inr ⟨[0, 5], false, rfl⟩) (.inl ⟨3, true, rfl⟩)

end Keys

end Program

end PrivateSetIntersection
