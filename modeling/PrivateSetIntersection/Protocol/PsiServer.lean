import PrivateSetIntersection.Protocol.ParallelEc
import PrivateSetIntersection.Datastructure.Raw
import PrivateSetIntersection.Datastructure.Gcs
import PrivateSetIntersection.Datastructure.BloomFilter

/-! `psi_server.cpp`. The progress slot is left out: no message depends on it. -/
namespace PrivateSetIntersection
open Library

/-- The third-party cipher, holding one party's key. -/
structure ECCommutativeCipher where
  encrypt : ElementOp
  reEncrypt : ElementOp
  decrypt : ElementOp

inductive DataStructure where
  | raw | gcs | bloomFilter
  deriving DecidableEq, Repr

structure PsiServer where
  ecCipher : ECCommutativeCipher
  revealIntersection : Bool

def boolText (b : Bool) : String := if b then "1" else "0"

def stringLess (a b : Bytes) : Bool := decide (a < b)

namespace PsiServer

section Setup
variable {D : Type} [DoubleArithmetic D] (sha256 : Bytes → Nat)

/-- The setup message, and what `*sorting_permutation` holds afterwards. -/
def createSetupMessage (S : ComparisonSort) (build : Build) (server : PsiServer) (fpr : D)
    (numClientInputs : Int) (inputs : List Bytes) (ds : DataStructure)
    (sortingPermutation : Option (List Nat)) : StatusOr (ServerSetup × Option (List Nat)) := do
  let correctedFpr := DoubleArithmetic.div fpr (DoubleArithmetic.ofInt numClientInputs)
  let encrypted ← StatusOr.ofExcept (build.transformElements 0 server.ecCipher.encrypt inputs).result
  match ds with
  | .gcs =>
    let container ← GCS.create sha256 S correctedFpr numClientInputs encrypted
    return (container.toProtobuf, sortingPermutation)
  | .bloomFilter =>
    let container ← BloomFilter.create sha256 correctedFpr numClientInputs encrypted
    return (container.toProtobuf, sortingPermutation)
  | .raw =>
    let (container, permutation) ← Raw.create S encrypted sortingPermutation
    return (container.toProtobuf, sortingPermutation.map (fun _ => permutation))

end Setup

def processRequest (S : ComparisonSort) (build : Build) (server : PsiServer)
    (clientRequest : Request) : StatusOr Response :=
  if ¬ clientRequest.isInitialized then
    .error (invalidArgumentError "`client_request` is corrupt!")
  else if clientRequest.revealIntersection ≠ server.revealIntersection then
    .error (invalidArgumentError
      ("Client expects `reveal_intersection` = " ++ boolText clientRequest.revealIntersection
        ++ ", but it is actually " ++ boolText server.revealIntersection))
  else do
    let reencrypted ← StatusOr.ofExcept
      (build.transformElements 0 server.ecCipher.reEncrypt clientRequest.encryptedElements).result
    if ¬ server.revealIntersection then
      return { encryptedElements := S.sort stringLess reencrypted }
    return { encryptedElements := reencrypted }

end PsiServer
end PrivateSetIntersection
