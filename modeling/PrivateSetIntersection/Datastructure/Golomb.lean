import PrivateSetIntersection.Library.Bytes
import PrivateSetIntersection.DoubleArithmetic

/-! `datastructure/golomb.cpp`. Indices into the packed string are checked: an
access outside it, or a shift by the width of the word or more, makes the call
`none`. The encoder's offsets are unbounded: `resize` throws long before a stream
whose bit count leaves an `int64_t`. The decoder's sums wrap at 64 bits. -/
namespace PrivateSetIntersection
open Library

def CHAR_SIZE : Nat := 8

def DIV_CEIL (a b : Nat) : Nat := (a + b - 1) / b

structure GolombCompressed where
  div : Int
  compressed : Bytes
  deriving DecidableEq, Repr

namespace Golomb

/-- The count a 64-bit shift by `div` uses, if it is defined. -/
def shiftCount (div : Int) : Option Nat :=
  if 0 ≤ div ∧ div < 64 then some div.toNat else none

/-- `s.resize(n, 0)` -/
def resize (s : Bytes) (n : Nat) : Bytes := s.take n ++ List.replicate (n - s.length) 0

/-- `s[i] |= static_cast<char>(v)` -/
def orByte (s : Bytes) (i v : Nat) : Option Bytes :=
  if i < s.length then some (s.modify i (· ||| UInt8.ofNat v)) else none

/-- The loop copying the remainder into the string, one byte a turn. -/
def writeRemainder (remainder div : Nat) :
    Nat → Bytes → (binaryIdx binaryStart i : Nat) → Option Bytes
  | 0, _, _, _, _ => none
  | fuel + 1, compressed, binaryIdx, binaryStart, i =>
    if binaryIdx < div then do
      let compressed ← orByte compressed i ((remainder >>> binaryIdx) <<< binaryStart)
      writeRemainder remainder div fuel compressed (binaryIdx + (CHAR_SIZE - binaryStart)) 0 (i + 1)
    else some compressed

structure Encoder where
  compressed : Bytes := []
  resIdx : Nat := 0
  prev : Nat := 0
  start : Bool := true

/-- The body of the encoder's loop, for one element. -/
def encodeElement (div : Int) (state : Encoder) (curr : Nat) : Option Encoder :=
  if state.start ∨ curr > state.prev then do
    let delta := curr - state.prev
    let div ← shiftCount div
    let quotient := delta >>> div
    let remainder := delta &&& (1 <<< div - 1)
    let len := quotient + 1 + div
    let compressed := resize state.compressed (DIV_CEIL (state.resIdx + len) CHAR_SIZE)
    let unaryEnd := state.resIdx + quotient
    let compressed ← orByte compressed (unaryEnd / CHAR_SIZE) (1 <<< (unaryEnd % CHAR_SIZE))
    let binaryStart := (unaryEnd + 1) % CHAR_SIZE
    let i := (unaryEnd + 1) / CHAR_SIZE
    let compressed ← writeRemainder remainder div (div + 1) compressed 0 binaryStart i
    return { compressed := compressed, resIdx := state.resIdx + len, prev := curr, start := false }
  else some state

section Estimate
variable (D : Type) [DoubleArithmetic D]
open DoubleArithmetic

def estimateDiv (sortedArr : List Nat) : Option Int :=
  let avg : D := div (ofInt (sortedArr.getLastD 0 + 1)) (ofInt sortedArr.length)
  let prob := div (ofInt 1) avg
  toInt64 (max (ofInt 0) (round (neg (log2 (neg (log2 (sub (ofInt 1) prob)))))))

/-- The average is taken only for a divisor that is not given; nothing else reads it. -/
def golombCompress (sortedArr : List Nat) (divParam : Int := -1) : Option GolombCompressed :=
  if sortedArr = [] then some ⟨0, []⟩
  else do
    let div ← if 0 ≤ divParam then some divParam else estimateDiv D sortedArr
    let state ← sortedArr.foldlM (encodeElement div) {}
    return ⟨div, state.compressed⟩

end Estimate

def ctz (x : Nat) : Nat := ((List.range CHAR_SIZE).find? x.testBit).getD CHAR_SIZE

/-- The loop over the empty bytes of a unary quotient. -/
def skipZeros (s : Bytes) : Nat → (it offset quotient : Nat) → Option (Nat × Nat × Nat)
  | 0, _, _, _ => none
  | fuel + 1, it, offset, quotient =>
    if it ≠ s.length then do
      let byte ← s[it]?
      if byte.toNat >>> offset = 0 then skipZeros s fuel (it + 1) 0 (quotient + (CHAR_SIZE - offset))
      else some (it, offset, quotient)
    else some (it, offset, quotient)

/-- The loop copying the remainder out of the string, one byte a turn. -/
def readRemainder (s : Bytes) (div : Int) :
    Nat → (it binaryIdx binaryStart remainder : Nat) → Option (Nat × Nat)
  | 0, _, _, _, _ => none
  | fuel + 1, it, binaryIdx, binaryStart, remainder =>
    if (binaryIdx : Int) < div then do
      let numBits := min (CHAR_SIZE - binaryStart) (div - binaryIdx).toNat
      let byte ← s[it]?
      let bits := (byte.toNat >>> binaryStart) &&& (1 <<< numBits - 1)
      readRemainder s div fuel (it + 1) (binaryIdx + numBits) 0 (remainder ||| bits <<< binaryIdx)
    else some (it, remainder)

structure Decoder where
  it : Nat := 0
  offset : Nat := 0
  prefixSum : Int := 0
  deriving DecidableEq, Repr

/-- Read one code word: the decoder after it, or `none` inside at the end of the string. -/
def decodeDelta (s : Bytes) (div : Int) (state : Decoder) : Option (Option Decoder) := do
  let (it, offset, quotient) ← skipZeros s (s.length + 1) state.it state.offset 0
  if it = s.length then return none
  let byte ← s[it]?
  let ctz := ctz (byte.toNat >>> offset)
  let quotient := quotient + ctz
  let oneIdx := ctz + offset
  let binaryStart := (oneIdx + 1) % CHAR_SIZE
  let it := if binaryStart = 0 then it + 1 else it
  let (it, remainder) ← readRemainder s div (div.toNat + 1) it 0 binaryStart 0
  let offset := (oneIdx + 1 + div.toNat) % CHAR_SIZE
  -- a remainder that ends inside a byte leaves the iterator one past it
  let it := if 0 < div ∧ offset ≠ 0 then it - 1 else it
  let shift ← shiftCount div
  let delta := int64 (quotient <<< shift ||| remainder : Nat)
  return some ⟨it, offset, int64 (state.prefixSum + delta)⟩

section Intersect
variable {ι : Type}

/-- The `while (true)` of the decoder. `arr` is the part of `sorted_arr` not yet passed; what
is paired with its values is only handed on. -/
def intersectFrom (s : Bytes) (div : Int) :
    Nat → Decoder → (arr : List (Int × ι)) → (res : List ι) → Option (List ι)
  | 0, _, _, _ => none
  | fuel + 1, state, arr, res => do
    match ← decodeDelta s div state with
    | none => return res
    | some state =>
      let arr := arr.dropWhile (fun pair => decide (pair.1 < state.prefixSum))
      let res := res ++ (arr.takeWhile (fun pair => decide (pair.1 = state.prefixSum))).map (·.2)
      let arr := arr.dropWhile (fun pair => decide (pair.1 = state.prefixSum))
      if arr = [] then return res
      intersectFrom s div fuel state arr res

def golombIntersect (golombCompressed : Bytes) (div : Int) (sortedArr : List (Int × ι)) :
    Option (List ι) :=
  if golombCompressed = [] then some []
  else intersectFrom golombCompressed div (8 * golombCompressed.length + 1) {} sortedArr []

end Intersect

end Golomb
end PrivateSetIntersection
