import PrivateSetIntersection.Status
import PrivateSetIntersection.DoubleArithmetic
import PrivateSetIntersection.Protocol.Protobuf

/-! `datastructure/bloom_filter.cpp`. An index outside `bits_`, a modulus of zero and
a negative vector length make a call `none`. -/
namespace PrivateSetIntersection
open Library

structure BloomFilter where
  numHashFunctions : Int
  bits : Bytes
  deriving DecidableEq, Repr

namespace BloomFilter
variable (sha256 : Bytes → Nat)

/-- `SHA256(1 || x) + i * SHA256(2 || x)` modulo the number of bits, for each `i`.
`StrCat` writes the number in decimal. -/
def hash (filter : BloomFilter) (x : Bytes) : Option (List Int) :=
  let numBits : Nat := 8 * filter.bits.length
  if numBits = 0 ∨ filter.numHashFunctions < 0 then none
  else
    let h₁ := sha256 (0x31 :: x) % numBits
    let h₂ := sha256 (0x32 :: x) % numBits
    some ((List.range filter.numHashFunctions.toNat).map (fun i : Nat =>
      (int64 (h₁ + int64 (i * h₂))).tmod numBits))

/-- `bits_[index / 8] |= (1 << (index % 8))` -/
def setBit (bits : Bytes) (index : Int) : Option Bytes :=
  if 0 ≤ index ∧ index / 8 < bits.length then
    some (bits.modify (index / 8).toNat (· ||| UInt8.ofNat (1 <<< (index % 8).toNat)))
  else none

/-- `(bits_[index / 8] >> (index % 8)) & 1` -/
def getBit (bits : Bytes) (index : Int) : Option Bool :=
  if 0 ≤ index ∧ index / 8 < bits.length then
    (bits[(index / 8).toNat]?).map (fun byte => byte.toNat.testBit (index % 8).toNat)
  else none

def addOne (filter : BloomFilter) (input : Bytes) : Option BloomFilter := do
  let indices ← filter.hash sha256 input
  let bits ← indices.foldlM setBit filter.bits
  return { filter with bits := bits }

/-- Both overloads of `Add`: one input is a span of length one. -/
def add (filter : BloomFilter) (inputs : List Bytes) : Option BloomFilter :=
  inputs.foldlM (addOne sha256) filter

def check (filter : BloomFilter) (input : Bytes) : Option Bool := do
  let indices ← filter.hash sha256 input
  indices.foldlM (fun result index => do
    let bit ← getBit filter.bits index
    return result && bit) true

def intersect (filter : BloomFilter) (elements : List Bytes) : Option (List Nat) :=
  elements.zipIdx.foldlM (fun res (element, i) => do
    let present ← filter.check sha256 element
    return if present then res ++ [i] else res) []

section Create
variable {D : Type} [DoubleArithmetic D]
open DoubleArithmetic

def createEmpty (fpr : D) (maxElements : Int) : StatusOr BloomFilter :=
  if le fpr (ofInt 0) ∨ le (ofInt 1) fpr then
    .error (invalidArgumentError "`fpr` must be in (0,1)")
  else if maxElements < 0 then
    .error (invalidArgumentError "`max_elements` must be positive")
  else do
    let numHashFunctions ← StatusOr.ofOption (toInt (ceil (neg (log2 fpr))))
    let numBytes ← StatusOr.ofOption (toInt64 (ceil
      (div (div (mul (ofInt (-maxElements)) (log2 fpr)) (log (ofInt 2))) (ofInt 8))))
    -- a negative count converts to a length no string can have
    if numBytes < 0 then .undefined
    else return ⟨numHashFunctions, List.replicate numBytes.toNat 0⟩

def create (fpr : D) (numClientInputs : Int) (elements : List Bytes) : StatusOr BloomFilter := do
  let numServerInputs : Int := elements.length
  let filter ← createEmpty fpr (Max.max numClientInputs numServerInputs)
  StatusOr.ofOption (filter.add sha256 elements)

end Create

def createFromProtobuf (encodedFilter : ServerSetup) : StatusOr BloomFilter :=
  if ¬ encodedFilter.isInitialized then
    .error (invalidArgumentError "`ServerSetup` is corrupt!")
  else .ok ⟨encodedFilter.bloomFilterInfo.numHashFunctions, encodedFilter.bloomFilterInfo.bits⟩

def toProtobuf (filter : BloomFilter) : ServerSetup :=
  .bloomFilter { numHashFunctions := filter.numHashFunctions, bits := filter.bits }

end BloomFilter
end PrivateSetIntersection
