import PrivateSetIntersection.Library.ComparisonSort
import PrivateSetIntersection.Status
import PrivateSetIntersection.Protocol.Protobuf

/-! `datastructure/raw.cpp`: the container of raw encrypted values. An index that
would leave its vector makes the whole call `none`, and so does a loop that
outlasts its fuel. -/
namespace PrivateSetIntersection
open Library

structure Raw where
  encrypted : List Bytes
  deriving DecidableEq, Repr

/-- `custom_set_intersection`: both cursors move on a match. -/
def customSetIntersection : List (Bytes × Nat) → List Bytes → List Nat
  | [], _ => []
  | _, [] => []
  | (x, i) :: first, y :: second =>
    if x < y then customSetIntersection first (y :: second)
    else if ¬ y < x then i :: customSetIntersection first second
    else customSetIntersection ((x, i) :: first) second
termination_by first second => first.length + second.length

/-- The comparator of the two index sorts. -/
def elementsLess (elements : List Bytes) (i₁ i₂ : Nat) : Bool :=
  decide (elements.getD i₁ [] < elements.getD i₂ [])

/-- `xs[i] = x`, for an index inside. -/
def assign {α : Type} (xs : List α) (i : Nat) (x : α) : Option (List α) :=
  if i < xs.length then some (xs.set i x) else none

/-- The inner `while (j != i)` of the in-place reordering. -/
def followCycle (permutation : List Nat) (i : Nat) :
    Nat → Nat → List Bytes → List Bool → Option (List Bytes × List Bool)
  | 0, _, _, _ => none
  | fuel + 1, j, elements, indexVisited =>
    if j = i then some (elements, indexVisited)
    else do
      let next ← permutation[j]?
      let value ← elements[next]?
      let elements ← assign elements j value
      let indexVisited ← assign indexVisited j true
      followCycle permutation i fuel next elements indexVisited

/-- The body of the outer `for` over `i`. -/
def rewriteCycle (permutation : List Nat) (state : List Bytes × List Bool) (i : Nat) :
    Option (List Bytes × List Bool) := do
  let (elements, indexVisited) := state
  let visited ← indexVisited[i]?
  if visited then return (elements, indexVisited)
  let j ← permutation[i]?
  let value ← elements[j]?
  let (elements, indexVisited) ←
    followCycle permutation i (elements.length + 1) j elements indexVisited
  let elements ← assign elements i value
  return (elements, indexVisited)

/-- The reordering loop, written out both in `Create` and in `GetAssociationTable`. -/
def applyPermutation (permutation : List Nat) (elements : List Bytes) : Option (List Bytes) := do
  let indexVisited := List.replicate elements.length false
  let (elements, _) ←
    (List.range elements.length).foldlM (rewriteCycle permutation) (elements, indexVisited)
  return elements

def resize (xs : List Nat) (n : Nat) : List Nat := xs.take n ++ List.replicate (n - xs.length) 0

/-- `std::iota` over a whole vector, from 0. -/
def iota (xs : List Nat) : List Nat := List.range xs.length

namespace Raw

/-- The container, and what `*sorting_permutation_ptr` holds afterwards. -/
def create (S : ComparisonSort) (elements : List Bytes) (sortingPermutationPtr : Option (List Nat)) :
    StatusOr (Raw × List Nat) := do
  let sortingPermutation := match sortingPermutationPtr with
    | none => List.replicate elements.length 0
    | some sortingPermutation => sortingPermutation
  let sortingPermutation := resize sortingPermutation elements.length
  let sortingPermutation := iota sortingPermutation
  let sortingPermutation := S.sort (elementsLess elements) sortingPermutation
  let elements ← StatusOr.ofOption (applyPermutation sortingPermutation elements)
  return (⟨elements⟩, sortingPermutation)

def createFromProtobuf (encodedFilter : ServerSetup) : StatusOr Raw :=
  if ¬ encodedFilter.isInitialized then
    .error (invalidArgumentError "`ServerSetup` is corrupt!")
  else .ok ⟨encodedFilter.rawInfo.encryptedElements⟩

/-- `std::pair`'s `operator<`, the comparator of the sort in `Intersect`. -/
def pairLess (a b : Bytes × Nat) : Bool :=
  decide (a.1 < b.1) || (!decide (b.1 < a.1) && decide (a.2 < b.2))

def intersect (S : ComparisonSort) (raw : Raw) (elements : List Bytes) : List Nat :=
  customSetIntersection (S.sort pairLess elements.zipIdx) raw.encrypted

def toProtobuf (raw : Raw) : ServerSetup := .raw ⟨raw.encrypted⟩

/-! The merge of `GetAssociationTable`, one definition for each of its loops. -/

/-- `while (i < decrypted.size() && decrypted[i] < encrypted_[j]) ++i;` -/
def advanceDecrypted (decrypted encrypted : List Bytes) (j i : Nat) : Option Nat :=
  if h : i < decrypted.length then
    match encrypted[j]? with
    | none => none
    | some e => if decrypted[i] < e then advanceDecrypted decrypted encrypted j (i + 1) else some i
  else some i
termination_by decrypted.length - i

/-- The `do ... while` that pairs `decrypted[i]` with a run of equal elements. -/
def emitRow (decrypted encrypted : List Bytes) (permutation : List Nat) (i j : Nat)
    (out : List Nat × List Nat) : Option (Nat × (List Nat × List Nat)) := do
  let a ← permutation[i]?
  let out := (out.1 ++ [a], out.2 ++ [j])
  if h : j + 1 < encrypted.length then
    let d ← decrypted[i]?
    if d = encrypted[j + 1] then emitRow decrypted encrypted permutation i (j + 1) out
    else some (j + 1, out)
  else some (j + 1, out)
termination_by encrypted.length - j

/-- The `while (true)`: the run is paired again for every further equal `decrypted[i]`. -/
def emitRun (decrypted encrypted : List Bytes) (permutation : List Nat) (firstJ : Nat)
    (firstEncrypted : Bytes) (i j : Nat) (out : List Nat × List Nat) :
    Option (Nat × Nat × (List Nat × List Nat)) := do
  let (j, out) ← emitRow decrypted encrypted permutation i j out
  if h : i + 1 < decrypted.length then
    if decrypted[i + 1] = firstEncrypted then
      emitRun decrypted encrypted permutation firstJ firstEncrypted (i + 1) firstJ out
    else some (i + 1, j, out)
  else some (i + 1, j, out)
termination_by decrypted.length - i

/-- `while (j < encrypted_.size() && i < decrypted.size() && decrypted[i] > encrypted_[j]) ++j;` -/
def advanceEncrypted (decrypted encrypted : List Bytes) (i j : Nat) : Nat :=
  if h : j < encrypted.length ∧ i < decrypted.length then
    if decrypted[i] > encrypted[j] then advanceEncrypted decrypted encrypted i (j + 1) else j
  else j
termination_by encrypted.length - j

def associate (decrypted encrypted : List Bytes) (permutation : List Nat) :
    Nat → Nat → Nat → List Nat × List Nat → Option (List Nat × List Nat)
  | 0, _, _, _ => none
  | fuel + 1, i, j, out =>
    if i < decrypted.length ∧ j < encrypted.length then do
      let i ← advanceDecrypted decrypted encrypted j i
      if decrypted.length ≤ i then return out
      let firstEncrypted ← encrypted[j]?
      let d ← decrypted[i]?
      let (i, j, out) ←
        if d = firstEncrypted then
          emitRun decrypted encrypted permutation j firstEncrypted i j out
        else some (i, j, out)
      let j := advanceEncrypted decrypted encrypted i j
      associate decrypted encrypted permutation fuel i j out
    else some out

def getAssociationTable (S : ComparisonSort) (raw : Raw) (decrypted : List Bytes) :
    Option (List Nat × List Nat) := do
  let permutation := List.range decrypted.length
  let permutation := S.sort (elementsLess decrypted) permutation
  let decrypted ← applyPermutation permutation decrypted
  associate decrypted raw.encrypted permutation
    (decrypted.length + raw.encrypted.length + 1) 0 0 ([], [])

end Raw
end PrivateSetIntersection
