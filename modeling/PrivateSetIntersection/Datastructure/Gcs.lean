import PrivateSetIntersection.Library.ComparisonSort
import PrivateSetIntersection.Status
import PrivateSetIntersection.Protocol.Protobuf
import PrivateSetIntersection.Datastructure.Golomb

/-! `datastructure/gcs.cpp`: the Golomb compressed set. `sha256` is the digest read
as a number. -/
namespace PrivateSetIntersection
open Library

structure GCS where
  golomb : Bytes
  div : Int
  hashRange : Int
  deriving DecidableEq, Repr

namespace GCS
variable (sha256 : Bytes → Nat)

/-- What the big-number library makes of a modulus that is not positive is not said here. -/
def hash (input : Bytes) (hashRange : Int) : Option Nat :=
  if 0 < hashRange then some (sha256 input % hashRange.toNat) else none

section Create
variable {D : Type} [DoubleArithmetic D]
open DoubleArithmetic

def create (S : ComparisonSort) (fpr : D) (numClientInputs : Int) (elements : List Bytes) :
    StatusOr GCS :=
  if le fpr (ofInt 0) ∨ le (ofInt 1) fpr then
    .error (invalidArgumentError "`fpr` must be in (0,1)")
  else do
    let numServerInputs : Int := elements.length
    let hashRange ← StatusOr.ofOption
      (toInt64 (DoubleArithmetic.div (ofInt (Max.max numClientInputs numServerInputs)) fpr))
    let hashes ← StatusOr.ofOption (elements.mapM (fun element => hash sha256 element hashRange))
    let hashes := S.sort (fun a b => decide (a < b)) hashes
    let compressed ← StatusOr.ofOption (Golomb.golombCompress D hashes)
    return ⟨compressed.compressed, compressed.div, hashRange⟩

end Create

def createFromProtobuf (encodedSet : ServerSetup) : StatusOr GCS :=
  if ¬ encodedSet.isInitialized then
    .error (invalidArgumentError "`ServerSetup` is corrupt!")
  else .ok ⟨encodedSet.gcsInfo.bits, encodedSet.gcsInfo.div, encodedSet.gcsInfo.hashRange⟩

def intersect (S : ComparisonSort) (gcs : GCS) (elements : List Bytes) : Option (List Nat) := do
  let hashes ← elements.zipIdx.mapM (fun (element, i) => do
    let h ← hash sha256 element gcs.hashRange
    return ((h : Int), i))
  let hashes := S.sort (fun a b => decide (a.1 < b.1)) hashes
  Golomb.golombIntersect gcs.golomb gcs.div hashes

/-- The divisor crosses the wire as an `int32`. -/
def toProtobuf (gcs : GCS) : ServerSetup :=
  .gcs { div := gcs.div.bmod (2 ^ 32), hashRange := gcs.hashRange, bits := gcs.golomb }

end GCS
end PrivateSetIntersection
