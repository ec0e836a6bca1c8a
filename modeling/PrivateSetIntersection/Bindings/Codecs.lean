import PrivateSetIntersection.Bindings.CInterface

/-! What the bindings of the other languages share: a program's messages are objects of its
own protobuf library and cross to the C++ code as bytes, and an error leaves as a text. -/
namespace PrivateSetIntersection
open Library

/-- What a call leaves a program with. An error is thrown, or returned in an error value. -/
inductive Outcome (α : Type) where
  | returned (value : α)
  | thrown (text : String)
  | panicked (text : String)
  | undefined
  deriving DecidableEq, Repr

namespace Outcome
variable {α β : Type}

def bind : Outcome α → (α → Outcome β) → Outcome β
  | .returned a, f => f a
  | .thrown text, _ => .thrown text
  | .panicked text, _ => .panicked text
  | .undefined, _ => .undefined

instance : Monad Outcome where
  pure := .returned
  bind := bind

@[simp] theorem pure_eq (a : α) : (pure a : Outcome α) = .returned a := rfl
@[simp] theorem returned_bind (a : α) (f : α → Outcome β) : ((.returned a : Outcome α) >>= f) = f a := rfl
@[simp] theorem thrown_bind (text : String) (f : α → Outcome β) :
    ((.thrown text : Outcome α) >>= f) = .thrown text := rfl
@[simp] theorem undefined_bind (f : α → Outcome β) : ((.undefined : Outcome α) >>= f) = .undefined := rfl

def ofStatusOr (text : Error → String) : StatusOr α → Outcome α
  | .ok a => .returned a
  | .error e => .thrown (text e)
  | .undefined => .undefined

def ofExcept : Except String α → Outcome α
  | .ok a => .returned a
  | .error text => .thrown text

@[simp] theorem ofStatusOr_ok (text : Error → String) (a : α) : ofStatusOr text (.ok a) = .returned a := rfl
@[simp] theorem ofStatusOr_error (text : Error → String) (e : Error) :
    ofStatusOr text (.error e : StatusOr α) = .thrown (text e) := rfl
@[simp] theorem ofExcept_ok (a : α) : ofExcept (.ok a) = .returned a := rfl

/-- The code and the text of a C function are the text a language makes of them. -/
def ofReturned (text : Nat → String → String) : CInterface.Returned α → Outcome α
  | .outputs a => .returned a
  | .failed code errorOut => .thrown (text code (errorOut.getD ""))
  | .undefined => .undefined

/-- With memory for its text, an error comes out of a C function as it went in, up to a NUL. -/
theorem ofReturned_answered {malloc : Nat → Bool} (hmalloc : ∀ n, malloc n = true) (text : Nat → String → String)
    (x : StatusOr α) :
    ofReturned text (CInterface.answered malloc true x) =
      ofStatusOr (fun e => text (CInterface.rawCode e.code) (CInterface.cString e.message)) x := by
  cases x with
  | ok a => rfl
  | undefined => rfl
  | error e =>
    rw [CInterface.answered, CInterface.generate_error_eq hmalloc]
    rfl

theorem bind_assoc {γ : Type} (x : Outcome α) (f : α → Outcome β) (g : β → Outcome γ) :
    (x >>= f >>= g) = (x >>= fun a => f a >>= g) := by
  cases x <;> rfl

theorem bind_congr {x : Outcome α} {f g : α → Outcome β} (h : ∀ a, x = .returned a → f a = g a) :
    (x >>= f) = (x >>= g) := by
  cases x with
  | returned a => exact h a rfl
  | thrown text => rfl
  | panicked text => rfl
  | undefined => rfl

theorem ofStatusOr_bind_congr {text : Error → String} {x : StatusOr α} {f g : α → Outcome β}
    (h : ∀ a, x = .ok a → f a = g a) : (ofStatusOr text x >>= f) = (ofStatusOr text x >>= g) := by
  refine bind_congr fun a ha => ?_
  cases x with
  | ok a' =>
    cases ha
    exact h a rfl
  | error e => cases ha
  | undefined => cases ha

theorem ofStatusOr_bind_ok (text : Error → String) (x : StatusOr α) (f : α → β) :
    ofStatusOr text (x >>= fun a => .ok (f a)) = ofStatusOr text x >>= fun a => .returned (f a) := by
  cases x <;> rfl

end Outcome

def numbers (indices : List Nat) : List Int := indices.map Int.ofNat

/-- A language's protobuf library, third-party, with one type of message. -/
structure Codec (M : Type) where
  encode : M → Except String Bytes
  decode : Bytes → Except String M

structure Codecs where
  serverSetup : Codec ServerSetup
  request : Codec Request
  response : Codec Response

/-- The C++ library, as a language's. -/
def Codec.cpp {M : Type} (pb : Protobuf M) : Codec M where
  encode m :=
    match pb.serializeToArray m with
    | some bytes => .ok bytes
    | none => .error "failed to serialize"
  decode bytes :=
    match pb.parseFromArray bytes with
    | some m => .ok m
    | none => .error "failed to parse"

theorem Codec.cpp_decode {M : Type} {pb : Protobuf M} {bytes : Bytes} {m : M} (h : pb.parseFromArray bytes = some m) :
    (Codec.cpp pb).decode bytes = .ok m := by
  dsimp only [Codec.cpp]
  rw [h]

theorem Codec.cpp_encode {M : Type} {pb : Protobuf M} {bytes : Bytes} {m : M} (h : pb.serializeToArray m = some bytes) :
    (Codec.cpp pb).encode m = .ok bytes := by
  dsimp only [Codec.cpp]
  rw [h]

theorem Codec.cpp_single_encode {M : Type} [DecidableEq M] [Message M] {message m : M} {written bytes : Bytes}
    (h : (Codec.cpp (.single message written)).encode m = .ok bytes) : m = message ∧ bytes = written := by
  dsimp only [Codec.cpp, Protobuf.single] at h
  by_cases hm : m = message
  · rw [if_pos hm] at h
    exact ⟨hm, (Except.ok.inj h).symm⟩
  · rw [if_neg hm] at h
    cases h

section Understanding
variable {M : Type} [Message M] (pb : Protobuf M) (limit : Nat) (Holds : M → Prop)

/-- A message that fits its fields and the limit, and whose numbers the objects of a language
can hold. -/
structure Message.Sendable (m : M) : Prop where
  fits : Message.Fits m
  size : pb.byteSizeLong m < limit
  holds : Holds m

/-- What the one library writes, the other reads. -/
def Understands (writer reader : Codec M) : Prop :=
  ∀ m, Message.Sendable pb limit Holds m → ∃ bytes, writer.encode m = .ok bytes ∧ reader.decode bytes = .ok m

/-- A library beside the C++ one. -/
structure Codec.Conforms (codec : Codec M) : Prop where
  reads : ∀ m bytes, Message.Sendable pb limit Holds m → pb.serializeToArray m = some bytes →
    codec.decode bytes = .ok m
  writes : ∀ m, Message.Sendable pb limit Holds m →
    ∃ bytes, codec.encode m = .ok bytes ∧ bytes.length < sizeLimit ∧ pb.parseFromArray bytes = some m

variable {pb limit}

theorem Codec.cpp_understands (hpb : pb.Lawful limit) : Understands pb limit Holds (.cpp pb) (.cpp pb) := by
  intro m hm
  obtain ⟨bytes, hwritten, -, hparsed⟩ := hpb.carried m hm.fits hm.size
  exact ⟨bytes, Codec.cpp_encode hwritten, Codec.cpp_decode hparsed⟩

theorem Codec.cpp_conforms (hpb : pb.Lawful limit) : (Codec.cpp pb).Conforms pb limit Holds where
  reads m bytes hm hbytes := by
    obtain ⟨written, hwritten, -, hparsed⟩ := hpb.carried m hm.fits hm.size
    obtain rfl := Option.some.inj (hwritten.symm.trans hbytes)
    exact Codec.cpp_decode hparsed
  writes m hm := by
    obtain ⟨bytes, hwritten, hsize, hparsed⟩ := hpb.carried m hm.fits hm.size
    exact ⟨bytes, Codec.cpp_encode hwritten, hsize.trans_le hpb.limit_le, hparsed⟩

end Understanding

section Libraries
variable (pb : Protobufs) (limit : Nat)

/-- A language's library conforms with all three messages. Only a setup has numbers. -/
structure Codecs.Conform (codecs : Codecs) (Holds : ServerSetup → Prop) : Prop where
  serverSetup : codecs.serverSetup.Conforms pb.serverSetup limit Holds
  request : codecs.request.Conforms pb.request limit (fun _ => True)
  response : codecs.response.Conforms pb.response limit (fun _ => True)

def Codecs.cpp : Codecs := ⟨.cpp pb.serverSetup, .cpp pb.request, .cpp pb.response⟩

variable {pb limit}

theorem Codecs.cpp_conform (hpb : pb.Lawful limit) (Holds : ServerSetup → Prop) :
    (Codecs.cpp pb).Conform pb limit Holds :=
  ⟨Codec.cpp_conforms Holds hpb.serverSetup, Codec.cpp_conforms _ hpb.request, Codec.cpp_conforms _ hpb.response⟩

end Libraries

section Calls
variable {M M' α : Type} (text : Error → String)

/-- A call that gives a message: its bytes are read by the language's library. -/
def makeMessage (codec : Codec M) (made : Outcome Bytes) : Outcome M := do
  let value ← made
  .ofExcept (codec.decode value)

def answerMessage (argument : Codec M) (codec : Codec M') (call : Bytes → Outcome Bytes) (m : M) :
    Outcome M' := do
  let bytes ← .ofExcept (argument.encode m)
  makeMessage codec (call bytes)

def answerMessages (codecs : Codecs) (call : Bytes → Bytes → Outcome α) (setup : ServerSetup)
    (response : Response) : Outcome α := do
  let setupBytes ← .ofExcept (codecs.serverSetup.encode setup)
  let responseBytes ← .ofExcept (codecs.response.encode response)
  call setupBytes responseBytes

variable [Message M] [Message M'] {pb : Protobuf M} {pb' : Protobuf M'} {limit : Nat} {codec : Codec M}
  {Holds : M → Prop} {codec' : Codec M'} {Holds' : M' → Prop} {write : M → StatusOr Bytes}
  {write' : M' → StatusOr Bytes}

/-- The library's call, through the language's messages. -/
theorem makeMessage_eq (hpb : pb.Lawful limit) (hcodec : codec.Conforms pb limit Holds)
    (hwrite : ∀ m bytes, pb.serializeToArray m = some bytes → write m = .ok bytes) {lib : StatusOr M}
    (hsend : ∀ m, lib = .ok m → Message.Sendable pb limit Holds m) :
    makeMessage codec (.ofStatusOr text (lib >>= write)) = .ofStatusOr text lib := by
  cases lib with
  | error e => rfl
  | undefined => rfl
  | ok m =>
    have hm := hsend m rfl
    obtain ⟨bytes, hbytes, -, -⟩ := hpb.carried m hm.fits hm.size
    rw [makeMessage, StatusOr.ok_bind, hwrite m bytes hbytes, Outcome.ofStatusOr_ok, Outcome.returned_bind,
      hcodec.reads m bytes hm hbytes]
    rfl

theorem answerMessage_eq (hpb' : pb'.Lawful limit) (hcodec : codec.Conforms pb limit Holds)
    (hcodec' : codec'.Conforms pb' limit Holds')
    (hwrite : ∀ m bytes, pb'.serializeToArray m = some bytes → write' m = .ok bytes) {m : M}
    (hm : Message.Sendable pb limit Holds m) {call : Bytes → Outcome Bytes} {lib : StatusOr M'}
    (hcall : ∀ bytes, bytes.length < sizeLimit → pb.parseFromArray bytes = some m →
      call bytes = .ofStatusOr text (lib >>= write'))
    (hsend : ∀ m', lib = .ok m' → Message.Sendable pb' limit Holds' m') :
    answerMessage codec codec' call m = .ofStatusOr text lib := by
  obtain ⟨bytes, hbytes, hsize, hparsed⟩ := hcodec.writes m hm
  rw [answerMessage, hbytes, Outcome.ofExcept_ok, Outcome.returned_bind, hcall bytes hsize hparsed]
  exact makeMessage_eq text hpb' hcodec' hwrite hsend

theorem answerMessages_eq {pb : Protobufs} {codecs : Codecs} {Holds : ServerSetup → Prop}
    (hcodecs : codecs.Conform pb limit Holds) {setup : ServerSetup} {response : Response}
    (hsetup : Message.Sendable pb.serverSetup limit Holds setup)
    (hresponse : Message.Sendable pb.response limit (fun _ => True) response) {call : Bytes → Bytes → Outcome α}
    {answer : Outcome α}
    (hcall : ∀ setupBytes responseBytes, setupBytes.length < sizeLimit → responseBytes.length < sizeLimit →
      pb.serverSetup.parseFromArray setupBytes = some setup → pb.response.parseFromArray responseBytes = some response →
      call setupBytes responseBytes = answer) :
    answerMessages codecs call setup response = answer := by
  obtain ⟨setupBytes, hsetupBytes, hsetupSize, hsetupParsed⟩ := hcodecs.serverSetup.writes setup hsetup
  obtain ⟨responseBytes, hresponseBytes, hresponseSize, hresponseParsed⟩ := hcodecs.response.writes response hresponse
  rw [answerMessages, hsetupBytes, Outcome.ofExcept_ok, Outcome.returned_bind, hresponseBytes,
    Outcome.ofExcept_ok, Outcome.returned_bind, hcall _ _ hsetupSize hresponseSize hsetupParsed hresponseParsed]

end Calls

end PrivateSetIntersection
