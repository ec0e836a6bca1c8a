import PrivateSetIntersection.Protocol.Exchange

/-! libprotobuf, which is third-party, with the messages of `psi.proto`: the functions that
the code calls, and what their documentation says of them. -/
namespace PrivateSetIntersection
open Library

/-- The size of a message is an `int`. -/
def sizeLimit : Nat := 2 ^ 31

class Message (M : Type) where
  /-- The types of the fields, `int32` and `int64`, can hold what is in them. -/
  Fits : M → Prop
  elements : M → List Bytes

def ServerSetup.Fits : ServerSetup → Prop
  | .gcs info => (-2 ^ 31 ≤ info.div ∧ info.div < 2 ^ 31) ∧
      (-2 ^ 63 ≤ info.hashRange ∧ info.hashRange < 2 ^ 63)
  | .bloomFilter info => -2 ^ 31 ≤ info.numHashFunctions ∧ info.numHashFunctions < 2 ^ 31
  | _ => True

instance : Message ServerSetup where
  Fits := ServerSetup.Fits
  elements setup := setup.rawInfo.encryptedElements

instance : Message Request where
  Fits _ := True
  elements := Request.encryptedElements

instance : Message Response where
  Fits _ := True
  elements := Response.encryptedElements

/-- What is called of the library with one type of message. The bytes that are serialized are
`ByteSizeLong()` many; the text of `SerializeAsString` and of `ParseFromString` is the same. -/
structure Protobuf (M : Type) where
  byteSizeLong : M → Nat
  serializeToArray : M → Option Bytes
  parseFromArray : Bytes → Option M

/-- A message below the library's limit is serialized and parsed back, and takes a byte or more
for each of its elements; past the limit, no message is parsed to another one. -/
structure Protobuf.Lawful {M : Type} [Message M] (pb : Protobuf M) (limit : Nat) : Prop where
  limit_le : limit ≤ sizeLimit
  carried : ∀ m, Message.Fits m → pb.byteSizeLong m < limit →
    ∃ bytes, pb.serializeToArray m = some bytes ∧ bytes.length < limit ∧ pb.parseFromArray bytes = some m
  same : ∀ m bytes m', Message.Fits m → pb.serializeToArray m = some bytes →
    pb.parseFromArray bytes = some m' → m' = m
  counted : ∀ m, (Message.elements m).length ≤ pb.byteSizeLong m

theorem Protobuf.Lawful.length_elements_lt {M : Type} [Message M] {pb : Protobuf M} {limit : Nat}
    (h : pb.Lawful limit) {m : M} (hm : pb.byteSizeLong m < limit) : (Message.elements m).length < 2 ^ 31 :=
  ((h.counted m).trans_lt hm).trans_le h.limit_le

structure Protobufs where
  serverSetup : Protobuf ServerSetup
  request : Protobuf Request
  response : Protobuf Response

structure Protobufs.Lawful (pb : Protobufs) (limit : Nat) : Prop where
  serverSetup : pb.serverSetup.Lawful limit
  request : pb.request.Lawful limit
  response : pb.response.Lawful limit

section Exchange
variable {D : Type} [DoubleArithmetic D] (sha256 : Bytes → Nat) {S : ComparisonSort} {build build' : Build}

theorem BloomFilter.createEmpty_fits [CastsFit D] {fpr : D} {maxElements : Int} {filter : BloomFilter}
    (h : BloomFilter.createEmpty fpr maxElements = .ok filter) :
    -2 ^ 31 ≤ filter.numHashFunctions ∧ filter.numHashFunctions < 2 ^ 31 := by
  rw [BloomFilter.createEmpty] at h
  split at h
  · cases h
  · split at h
    · cases h
    · obtain ⟨numHashFunctions, hcast, h⟩ := StatusOr.bind_eq_ok.mp h
      obtain ⟨numBytes, -, h⟩ := StatusOr.bind_eq_ok.mp h
      split at h <;> cases h
      exact CastsFit.toInt _ (StatusOr.ofOption_eq_ok.mp hcast)

/-- Every setup a server makes fits the fields of its message. -/
theorem PsiServer.createSetupMessage_fits [CastsFit D] {server : PsiServer} {fpr : D} {numClientInputs : Int}
    {inputs : List Bytes} {ds : DataStructure} {ptr permutation : Option (List Nat)} {setup : ServerSetup}
    (h : server.createSetupMessage sha256 S build fpr numClientInputs inputs ds ptr = .ok (setup, permutation)) :
    setup.Fits := by
  obtain ⟨encrypted, -, h⟩ := StatusOr.bind_eq_ok.mp h
  cases ds with
  | raw =>
    obtain ⟨⟨container, _⟩, -, h⟩ := StatusOr.bind_eq_ok.mp h
    cases h
    trivial
  | gcs =>
    obtain ⟨container, hcreate, h⟩ := StatusOr.bind_eq_ok.mp h
    cases h
    exact ⟨⟨Int.le_bmod (by decide), Int.bmod_lt (by decide)⟩,
      CastsFit.toInt64 _ (GCS.create_eq_ok hcreate).1⟩
  | bloomFilter =>
    obtain ⟨container, hcreate, h⟩ := StatusOr.bind_eq_ok.mp h
    cases h
    obtain ⟨empty, hempty, hadd⟩ := StatusOr.bind_eq_ok.mp hcreate
    obtain ⟨-, hcount, -⟩ := BloomFilter.add_eq_some_iff.mp (StatusOr.ofOption_eq_ok.mp hadd)
    have hfits := BloomFilter.createEmpty_fits hempty
    rw [← hcount] at hfits
    exact hfits

theorem PsiServer.setupMessage_fits [CastsFit D] {server : PsiServer} {fpr : D} {numClientInputs : Int}
    {inputs : List Bytes} {ds : DataStructure} {setup : ServerSetup}
    (h : server.setupMessage sha256 S build fpr numClientInputs inputs ds = .ok setup) : setup.Fits := by
  obtain ⟨⟨made, permutation⟩, hmade, hfst⟩ := StatusOr.bind_eq_ok.mp h
  obtain rfl := StatusOr.ok.inj hfst
  exact PsiServer.createSetupMessage_fits sha256 hmade

variable (S build build')

/-- The messages of an exchange, each where it is made, are below the limit. -/
structure Carried (pb : Protobufs) (limit : Nat) (server : PsiServer) (client : PsiClient) (fpr : D)
    (numClientInputs : Int) (serverInputs clientInputs : List Bytes) (ds : DataStructure) : Prop where
  setup : ∀ setup, server.setupMessage sha256 S build fpr numClientInputs serverInputs ds = .ok setup →
    pb.serverSetup.byteSizeLong setup < limit
  request : ∀ request, client.createRequest build' clientInputs = .ok request → pb.request.byteSizeLong request < limit
  response : ∀ request response, client.createRequest build' clientInputs = .ok request →
    server.processRequest S build request = .ok response → pb.response.byteSizeLong response < limit

end Exchange

section Single
variable {M : Type} [DecidableEq M] [Message M]

/-- A library that is asked about one message: every other is past its limit. -/
def Protobuf.single (message : M) (written : Bytes) : Protobuf M where
  byteSizeLong m := if m = message then written.length else sizeLimit + (Message.elements m).length
  serializeToArray m := if m = message then some written else none
  parseFromArray bytes := if bytes = written then some message else none

theorem Protobuf.single_lawful {message : M} {written : Bytes}
    (h : (Message.elements message).length ≤ written.length) : (single message written).Lawful sizeLimit where
  limit_le := Nat.le_refl _
  carried m _ hsize := by
    dsimp only [single] at hsize ⊢
    split at hsize <;> rename_i hm
    · subst hm
      exact ⟨written, if_pos rfl, hsize, if_pos rfl⟩
    · exact absurd hsize (by omega)
  same m bytes m' _ hbytes hm' := by
    dsimp only [single] at hbytes hm'
    split at hbytes <;> rename_i hm
    · obtain rfl := Option.some.inj hbytes
      rw [if_pos rfl] at hm'
      rw [hm, Option.some.inj hm']
    · cases hbytes
  counted m := by
    dsimp only [single]
    split <;> rename_i hm
    · rwa [hm]
    · exact Nat.le_add_left _ _

end Single

end PrivateSetIntersection
