import PrivateSetIntersection.Library.Bytes

/-! The messages of `psi.proto`, and the protobuf encoding of the two that are
also read as bytes. -/
namespace PrivateSetIntersection
open Library

structure RawInfo where
  encryptedElements : List Bytes := []
  deriving DecidableEq, Repr

structure GCSInfo where
  div : Int := 0
  hashRange : Int := 0
  bits : Bytes := []
  deriving DecidableEq, Repr

structure BloomFilterInfo where
  numHashFunctions : Int := 0
  bits : Bytes := []
  deriving DecidableEq, Repr

/-- The `data_structure` oneof is all a `ServerSetup` holds. -/
inductive ServerSetup where
  | dataStructureNotSet
  | raw (info : RawInfo)
  | gcs (info : GCSInfo)
  | bloomFilter (info : BloomFilterInfo)
  deriving DecidableEq, Repr

namespace ServerSetup

/-- Reading a member of the oneof that is not set gives its default instance. -/
def rawInfo : ServerSetup → RawInfo
  | .raw info => info
  | _ => {}

def gcsInfo : ServerSetup → GCSInfo
  | .gcs info => info
  | _ => {}

def bloomFilterInfo : ServerSetup → BloomFilterInfo
  | .bloomFilter info => info
  | _ => {}

/-- A proto3 schema has no required field, so a message always is. -/
def isInitialized (_ : ServerSetup) : Bool := true

end ServerSetup

structure Request where
  revealIntersection : Bool := false
  encryptedElements : List Bytes := []
  deriving DecidableEq, Repr

def Request.isInitialized (_ : Request) : Bool := true

structure Response where
  encryptedElements : List Bytes := []
  deriving DecidableEq, Repr

def Response.isInitialized (_ : Response) : Bool := true

/-- The minimal base-128 encoding, low group first. -/
def varint (n : Nat) : Bytes :=
  if n < 128 then [UInt8.ofNat n] else UInt8.ofNat (n % 128 + 128) :: varint (n / 128)

/-- Field 1 with wire type 2: `raw` in `ServerSetup`, `encrypted_elements` in
`RawInfo` and in `Response`. -/
def field1 (payload : Bytes) : Bytes := 0x0A :: (varint payload.length ++ payload)

def serializeEntries (elements : List Bytes) : Bytes := elements.flatMap field1

def RawInfo.serialize (info : RawInfo) : Bytes := serializeEntries info.encryptedElements

/-- The serialized `ServerSetup` whose oneof holds `info`. -/
def RawInfo.serializeSetup (info : RawInfo) : Bytes := field1 info.serialize

def Response.serialize (response : Response) : Bytes := serializeEntries response.encryptedElements

end PrivateSetIntersection
