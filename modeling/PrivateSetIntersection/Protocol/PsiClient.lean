import PrivateSetIntersection.Protocol.PsiServer

/-! `psi_client.cpp`. The progress slot is left out: no answer depends on it. -/
namespace PrivateSetIntersection
open Library

structure PsiClient where
  ecCipher : ECCommutativeCipher
  revealIntersection : Bool

namespace PsiClient
variable (sha256 : Bytes → Nat)

def createRequest (build : Build) (client : PsiClient) (inputs : List Bytes) : StatusOr Request := do
  let encryptedInputs ← StatusOr.ofExcept
    (build.transformElements 0 client.ecCipher.encrypt inputs).result
  return { revealIntersection := client.revealIntersection, encryptedElements := encryptedInputs }

def decryptResponse (build : Build) (client : PsiClient) (serverSetup : ServerSetup)
    (serverResponse : Response) : StatusOr (List Bytes) :=
  if ¬ serverSetup.isInitialized then
    .error (invalidArgumentError "`server_setup` is corrupt!")
  else if ¬ serverResponse.isInitialized then
    .error (invalidArgumentError "`server_response` is corrupt!")
  else StatusOr.ofExcept
    (build.transformElements 0 client.ecCipher.decrypt serverResponse.encryptedElements).result

def processResponse (S : ComparisonSort) (build : Build) (client : PsiClient)
    (serverSetup : ServerSetup) (serverResponse : Response) : StatusOr (List Nat) := do
  let decrypted ← client.decryptResponse build serverSetup serverResponse
  match serverSetup with
  | .raw _ =>
    let container ← Raw.createFromProtobuf serverSetup
    return container.intersect S decrypted
  | .gcs _ =>
    let container ← GCS.createFromProtobuf serverSetup
    StatusOr.ofOption (container.intersect sha256 S decrypted)
  | .bloomFilter _ =>
    let container ← BloomFilter.createFromProtobuf serverSetup
    StatusOr.ofOption (container.intersect sha256 decrypted)
  | .dataStructureNotSet => .error (invalidArgumentError "Impossible")

def processResponseForAssociationTable (S : ComparisonSort) (build : Build) (client : PsiClient)
    (serverSetup : ServerSetup) (serverResponse : Response) :
    StatusOr (List Nat × List Nat) := do
  let decrypted ← client.decryptResponse build serverSetup serverResponse
  match serverSetup with
  | .raw _ =>
    let container ← Raw.createFromProtobuf serverSetup
    StatusOr.ofOption (container.getAssociationTable S decrypted)
  | .gcs _ | .bloomFilter _ => .error (invalidArgumentError
      "associative table can only be computed for Raw data structure")
  | .dataStructureNotSet => .error (invalidArgumentError "Impossible")

def getIntersection (S : ComparisonSort) (build : Build) (client : PsiClient)
    (serverSetup : ServerSetup) (serverResponse : Response) : StatusOr (List Nat) :=
  if ¬ client.revealIntersection then
    .error (invalidArgumentError
      "GetIntersection called on PsiClient with reveal_intersection == false")
  else client.processResponse sha256 S build serverSetup serverResponse

def getAssociationTable (S : ComparisonSort) (build : Build) (client : PsiClient)
    (serverSetup : ServerSetup) (serverResponse : Response) : StatusOr (List Nat × List Nat) :=
  if ¬ client.revealIntersection then
    .error (invalidArgumentError
      "GetAssociationTable called on PsiClient with reveal_intersection == false")
  else client.processResponseForAssociationTable S build serverSetup serverResponse

def getIntersectionSize (S : ComparisonSort) (build : Build) (client : PsiClient)
    (serverSetup : ServerSetup) (serverResponse : Response) : StatusOr Nat := do
  let intersection ← client.processResponse sha256 S build serverSetup serverResponse
  return intersection.length

end PsiClient
end PrivateSetIntersection
