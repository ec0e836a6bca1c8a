import PrivateSetIntersection.Streaming.EntryReader
import PrivateSetIntersection.Protocol.ParallelEc

/-! `psi_match.cpp`: the client's final step over a Raw setup, fed in byte windows.
A call gives its status and the object after it, also where it is refused. -/
namespace PrivateSetIntersection
open Library

def kSlotBytes : Nat := 1 + kMaxElementBytes
def kBlockSlotsLog2 : Nat := 16
def kBlockSlots : Nat := 1 <<< kBlockSlotsLog2
def kBatchElements : Nat := 1 <<< 16
def kMaxElements : Nat := 2 ^ 32 - 1

/-- `std::memcmp`: the difference of the first bytes that differ. -/
def memcmp : Bytes → Bytes → Int
  | x :: xs, y :: ys => if x = y then memcmp xs ys else (x.toNat : Int) - y.toNat
  | _, _ => 0

def compareElements (a b : Bytes) : Int :=
  let common := min a.length b.length
  let first := memcmp (a.take common) (b.take common)
  if common > 0 ∧ first ≠ 0 then first
  else if a.length = b.length then 0
  else if a.length < b.length then -1 else 1

structure PsiMatchResult where
  decryptedCount : Nat := 0
  intersectionSize : Nat := 0
  responseIndices : List Nat := []
  setupIndices : List Nat := []
  deriving DecidableEq, Repr

inductive Phase where
  | setup | matching | finished
  deriving DecidableEq, Repr

inductive SetupFrame where
  | tag | length | body | done
  deriving DecidableEq, Repr

structure PsiMatch where
  revealIntersection : Bool
  phase : Phase := .setup
  failure : Status := .ok
  setupFrame : SetupFrame := .tag
  rawLength : Nat := 0
  rawLengthBytes : Nat := 0
  rawRemaining : Nat := 0
  setupReader : EntryReader := {}
  setupBlocks : List Bytes := []
  setupCount : Nat := 0
  responseReader : EntryReader := {}
  batch : List Bytes := []
  decryptedCount : Nat := 0
  matchedSetup : List Nat := []
  responseIndices : List Nat := []
  setupIndices : List Nat := []

/-- What a call touches outside the object: the caller's progress slot, `none` for a
null pointer, and the elements the cipher has been asked to decrypt. -/
structure Surroundings where
  progress : Option Int := none
  decryptCalls : List Bytes := []
  deriving DecidableEq, Repr

/-- `fetch_add` on the 32-bit slot. -/
def Surroundings.after (w : Surroundings) (pass : Pass) : Surroundings where
  progress := w.progress.map (fun slot : Int => (slot + pass.published).bmod (2 ^ 32))
  decryptCalls := w.decryptCalls ++ pass.calls

namespace PsiMatch

private theorem freshInside : EntryReader.State.tag = .body → ([] : Bytes).length < 0 ∧ 0 ≤ kMaxElementBytes := by
  intro h
  cases h

def fresh (revealIntersection : Bool) : PsiMatch where
  revealIntersection
  setupReader := { inside := freshInside }
  responseReader := { inside := freshInside }

def fail (m : PsiMatch) (e : Error) : Status × PsiMatch := (.error e, { m with failure := .error e })

/-- Bytes `offset, offset + 1, ...` of an allocation. -/
def readBytes (block : Bytes) (offset n : Nat) : Bytes := (block.drop offset).take n

def writeBytes (block : Bytes) (offset : Nat) (data : Bytes) : Bytes :=
  block.take offset ++ data ++ block.drop (offset + data.length)

def slotOffset (index : Nat) : Nat := (index &&& (kBlockSlots - 1)) * kSlotBytes

def setupElement (m : PsiMatch) (index : Nat) : Bytes :=
  let block := m.setupBlocks.getD (index >>> kBlockSlotsLog2) []
  let slot := slotOffset index
  readBytes block (slot + 1) (block.getD slot 0).toNat

def setupSize (m : PsiMatch) : Nat := m.setupCount

def tooManySetupElements : Error := invalidArgumentError "server setup has too many elements"
def notAscending : Error := invalidArgumentError
  "server setup is not in strictly ascending element order"

def addSetupElement (element : Bytes) (m : PsiMatch) : Status × PsiMatch :=
  if m.setupCount ≥ kMaxElements then (.error tooManySetupElements, m)
  else if m.setupCount > 0 ∧ compareElements (m.setupElement (m.setupCount - 1)) element ≥ 0 then
    (.error notAscending, m)
  else
    let block := m.setupCount >>> kBlockSlotsLog2
    let setupBlocks :=
      if block = m.setupBlocks.length then
        m.setupBlocks ++ [List.replicate (kBlockSlots * kSlotBytes) 0]
      else m.setupBlocks
    let slot := slotOffset m.setupCount
    let setupBlocks := setupBlocks.modify block (fun memory =>
      writeBytes (writeBytes memory slot [UInt8.ofNat element.length]) (slot + 1) element)
    (.ok, { m with setupBlocks := setupBlocks, setupCount := m.setupCount + 1 })

def addAfterSeal : Error := failedPreconditionError "AddSetupBytes called after SealSetup"
def notRaw : Error := invalidArgumentError "server setup is not a single Raw data structure"
def pastTheEnd : Error := invalidArgumentError
  "a server setup element runs past the end of the Raw data structure"
def bytesAfter : Error := invalidArgumentError
  "server setup has bytes after the Raw data structure"

/-- The `while` of `AddSetupBytes`, over the bytes not yet consumed. -/
def addSetupLoop (m : PsiMatch) : (bytes : Bytes) → Status × PsiMatch
  | [] => (.ok, m)
  | byte :: rest =>
    match hf : m.setupFrame with
    | .tag =>
      if byte ≠ kField1LengthDelimited then m.fail notRaw
      else addSetupLoop { m with setupFrame := .length } rest
    | .length =>
      match addVarint32Byte byte m.rawLength m.rawLengthBytes "server setup" with
      | .error e => m.fail e
      | .ok (done, rawLength, rawLengthBytes) =>
        let m := { m with rawLength, rawLengthBytes }
        if ¬ done then addSetupLoop m rest
        else
          let m := { m with rawRemaining := m.rawLength }
          let m := { m with setupFrame := if m.rawRemaining = 0 then .done else .body }
          addSetupLoop m rest
    | .body =>
      let take := min m.rawRemaining (byte :: rest).length
      match m.setupReader.feed addSetupElement m ((byte :: rest).take take) with
      | (.error e, reader, m) => { m with setupReader := reader }.fail e
      | (.ok, reader, m') =>
        let m' := { m' with setupReader := reader, rawRemaining := m.rawRemaining - take }
        if m.rawRemaining - take = 0 then
          if ¬ reader.atEntryBoundary then m'.fail pastTheEnd
          else addSetupLoop { m' with setupFrame := .done } ((byte :: rest).drop take)
        else addSetupLoop m' ((byte :: rest).drop take)
    | .done => m.fail bytesAfter
termination_by bytes => (bytes.length, if m.setupFrame = .body then 1 else 0)
decreasing_by
  · simp [Prod.lex_def]
  · simp [Prod.lex_def]
  · simp [Prod.lex_def]
  · simp only [List.length_cons, List.length_drop, hf, Prod.lex_def]
    simp
    omega
  · simp only [List.length_cons, List.length_drop, Prod.lex_def]
    left
    omega

def addSetupBytes (m : PsiMatch) (bytes : Bytes) : Status × PsiMatch :=
  match m.failure with
  | .error e => (.error e, m)
  | .ok => if m.phase ≠ .setup then m.fail addAfterSeal else m.addSetupLoop bytes

def sealTwice : Error := failedPreconditionError "SealSetup called more than once"
def incomplete : Error := invalidArgumentError "server setup is incomplete"

def sealSetup (m : PsiMatch) : Status × PsiMatch :=
  match m.failure with
  | .error e => (.error e, m)
  | .ok =>
    if m.phase ≠ .setup then m.fail sealTwice
    else if m.setupFrame ≠ .done then m.fail incomplete
    else (.ok, { m with
      matchedSetup := List.replicate ((m.setupCount + 63) / 64) 0, phase := .matching })

/-- The loop of `FindInSetup`, on the bounds `low` and `high`. -/
def searchSetup (m : PsiMatch) (element : Bytes) (low high : Nat) : Int :=
  if low < high then
    let mid := low + (high - low) / 2
    let order := compareElements (m.setupElement mid) element
    if order = 0 then mid
    else if order < 0 then searchSetup m element (mid + 1) high
    else searchSetup m element low mid
  else -1
termination_by high - low

def findInSetup (m : PsiMatch) (element : Bytes) : Int := m.searchSetup element 0 m.setupCount

/-- The loop over the decrypted batch, from its element `k` on. -/
def recordMatches (m : PsiMatch) (k : Nat) : List Bytes → PsiMatch
  | [] => m
  | element :: rest =>
    let index := m.findInSetup element
    if index < 0 then recordMatches m (k + 1) rest
    else
      let index := index.toNat
      let m := { m with
        matchedSetup := m.matchedSetup.modify (index >>> 6) (· ||| 1 <<< (index &&& 63)) }
      let m :=
        if m.revealIntersection then
          { m with
            responseIndices := m.responseIndices ++ [(m.decryptedCount + k) % 2 ^ 32]
            setupIndices := m.setupIndices ++ [index % 2 ^ 32] }
        else m
      recordMatches m (k + 1) rest

section Decrypting
variable (build : Build) (decrypt : ElementOp)

def matchBatch (s : PsiMatch × Surroundings) : Status × PsiMatch × Surroundings :=
  let (m, w) := s
  if m.batch = [] then (.ok, m, w)
  else
    -- one batch after the other: the moment of each is in how much was decrypted before it
    let pass := build.transformElements w.decryptCalls.length decrypt m.batch
    let w := w.after pass
    match pass.result with
    | .error e => (.error e, m, w)
    | .ok decrypted =>
      let m := m.recordMatches 0 decrypted
      (.ok, { m with decryptedCount := m.decryptedCount + decrypted.length, batch := [] }, w)

def tooManyResponseElements : Error := invalidArgumentError
  "server response has too many elements"

/-- What `MatchResponsePiece` hands to the reader. -/
def onResponseEntry (element : Bytes) (s : PsiMatch × Surroundings) :
    Status × PsiMatch × Surroundings :=
  let (m, w) := s
  if m.decryptedCount + m.batch.length ≥ kMaxElements then (.error tooManyResponseElements, m, w)
  else
    let m := { m with batch := m.batch ++ [element] }
    if m.batch.length ≥ kBatchElements then matchBatch build decrypt (m, w)
    else (.ok, m, w)

def matchBeforeSeal : Error := failedPreconditionError "MatchResponsePiece called before SealSetup"
def matchAfterFinish : Error := failedPreconditionError "MatchResponsePiece called after Finish"

def matchResponsePiece (s : PsiMatch × Surroundings) (bytes : Bytes) :
    Status × PsiMatch × Surroundings :=
  let (m, w) := s
  match m.failure with
  | .error e => (.error e, m, w)
  | .ok =>
    if m.phase = .setup then ((m.fail matchBeforeSeal).1, (m.fail matchBeforeSeal).2, w)
    else if m.phase = .finished then ((m.fail matchAfterFinish).1, (m.fail matchAfterFinish).2, w)
    else
      let (status, reader, m, w) :=
        m.responseReader.feed (onResponseEntry build decrypt) (m, w) bytes
      let m := { m with responseReader := reader }
      let (status, m, w) := match status with
        | .ok => matchBatch build decrypt (m, w)
        | .error e => (.error e, m, w)
      match status with
      | .error e => ((m.fail e).1, (m.fail e).2, w)
      | .ok => (.ok, m, w)

end Decrypting

/-- `std::bitset<64>(word).count()` -/
def bitCount (word : Nat) : Nat := (List.range 64).countP word.testBit

def finishBeforeSeal : Error := failedPreconditionError "Finish called before SealSetup"
def finishTwice : Error := failedPreconditionError "Finish called more than once"
def insideAnElement : Error := invalidArgumentError "server response ends inside an element"

def finish (m : PsiMatch) : Except Error PsiMatchResult × PsiMatch :=
  match m.failure with
  | .error e => (.error e, m)
  | .ok =>
    if m.phase = .setup then (.error finishBeforeSeal, (m.fail finishBeforeSeal).2)
    else if m.phase = .finished then (.error finishTwice, (m.fail finishTwice).2)
    else if ¬ m.responseReader.atEntryBoundary then
      (.error insideAnElement, (m.fail insideAnElement).2)
    else
      let result : PsiMatchResult := {
        decryptedCount := m.decryptedCount
        intersectionSize := (m.matchedSetup.map bitCount).sum
        responseIndices := m.responseIndices
        setupIndices := m.setupIndices }
      (.ok result, { m with
        responseIndices := [], setupIndices := [], setupBlocks := [], matchedSetup := [], batch := [],
        phase := .finished })

end PsiMatch
end PrivateSetIntersection
