import PrivateSetIntersection.Datastructure.AssociationTable
import PrivateSetIntersection.Datastructure.RawIntersection
import PrivateSetIntersection.Library.Traversal
import PrivateSetIntersection.Protocol.PsiClient
import PrivateSetIntersection.Protocol.Schedules

/-! What the two parties' calls return, once the shards and the index sorts are out of
the way: each as a traversal with the cipher and one operation on the elements. -/
namespace PrivateSetIntersection
open Library

section Sorted
variable (S : ComparisonSort) (elements : List Bytes)

def sortedRaw : Raw := ⟨arrange elements (sortingPermutation S elements)⟩

theorem sortedRaw_ascending : (sortedRaw S elements).encrypted.Pairwise (· ≤ ·) :=
  arrange_ascending S elements

theorem sortedRaw_perm : (sortedRaw S elements).encrypted.Perm elements :=
  arrange_perm elements (sortingPermutation_perm S elements)

theorem sortedRaw_strict_iff :
    (sortedRaw S elements).encrypted.Pairwise (· < ·) ↔ elements.Nodup := by
  rw [← (sortedRaw_perm S elements).nodup_iff]
  constructor
  · exact fun hlt => hlt.imp ne_of_lt
  · exact fun hne => ((sortedRaw_ascending S elements).and hne).imp fun h => lt_of_le_of_ne h.1 h.2

theorem sortedRaw_getElem? {k : Nat} (hk : k < elements.length) :
    (sortedRaw S elements).encrypted[k]? = elements[origin (sortingPermutation S elements) k]? := by
  have hperm := sortingPermutation_perm S elements
  have hrow := origin_lt hperm hk
  rw [sortedRaw, arrange, List.getElem?_map, getElem?_origin hperm hk, Option.map_some,
    List.getD_eq_getElem _ _ hrow, List.getElem?_eq_getElem hrow]

end Sorted

section Server
variable {D : Type} [DoubleArithmetic D] (sha256 : Bytes → Nat) (S : ComparisonSort) (build : Build)
  (server : PsiServer)

theorem PsiServer.createSetupMessage_raw (fpr : D) (numClientInputs : Int) {inputs encrypted : List Bytes}
    (hencrypt : inputs.mapM server.ecCipher.encrypt = .ok encrypted) (ptr : Option (List Nat)) :
    server.createSetupMessage sha256 S build fpr numClientInputs inputs .raw ptr =
      .ok (.raw ⟨(sortedRaw S encrypted).encrypted⟩,
        ptr.map (fun _ => sortingPermutation S encrypted)) := by
  rw [PsiServer.createSetupMessage]
  simp only [Build.transformElements_result, hencrypt, StatusOr.ofExcept_ok, StatusOr.ok_bind,
    Raw.create_eq]
  rfl

theorem PsiServer.createSetupMessage_gcs (fpr : D) (numClientInputs : Int) {inputs encrypted : List Bytes}
    (hencrypt : inputs.mapM server.ecCipher.encrypt = .ok encrypted) (ptr : Option (List Nat)) :
    server.createSetupMessage sha256 S build fpr numClientInputs inputs .gcs ptr = (do
      let container ← GCS.create sha256 S
        (DoubleArithmetic.div fpr (DoubleArithmetic.ofInt numClientInputs)) numClientInputs encrypted
      return (container.toProtobuf, ptr)) := by
  rw [PsiServer.createSetupMessage]
  simp only [Build.transformElements_result, hencrypt, StatusOr.ofExcept_ok, StatusOr.ok_bind]

theorem PsiServer.createSetupMessage_bloomFilter (fpr : D) (numClientInputs : Int)
    {inputs encrypted : List Bytes}
    (hencrypt : inputs.mapM server.ecCipher.encrypt = .ok encrypted) (ptr : Option (List Nat)) :
    server.createSetupMessage sha256 S build fpr numClientInputs inputs .bloomFilter ptr = (do
      let container ← BloomFilter.create sha256
        (DoubleArithmetic.div fpr (DoubleArithmetic.ofInt numClientInputs)) numClientInputs encrypted
      return (container.toProtobuf, ptr)) := by
  rw [PsiServer.createSetupMessage]
  simp only [Build.transformElements_result, hencrypt, StatusOr.ofExcept_ok, StatusOr.ok_bind]

/-- `CreateSetupMessage` of a caller that has no use for the permutation. -/
def PsiServer.setupMessage (fpr : D) (numClientInputs : Int) (inputs : List Bytes) (ds : DataStructure) :
    StatusOr ServerSetup :=
  server.createSetupMessage sha256 S build fpr numClientInputs inputs ds none >>= fun made => .ok made.1

/-- The setup is the same for one who has. -/
theorem PsiServer.createSetupMessage_fst (fpr : D) (numClientInputs : Int) (inputs : List Bytes)
    (ds : DataStructure) (ptr : Option (List Nat)) :
    (server.createSetupMessage sha256 S build fpr numClientInputs inputs ds ptr >>= fun made => .ok made.1) =
      server.setupMessage sha256 S build fpr numClientInputs inputs ds := by
  rw [PsiServer.setupMessage]
  cases hencrypt : inputs.mapM server.ecCipher.encrypt with
  | error e =>
    simp only [PsiServer.createSetupMessage, Build.transformElements_result, hencrypt, StatusOr.ofExcept_error,
      StatusOr.error_bind]
  | ok encrypted =>
    cases ds with
    | raw =>
      rw [PsiServer.createSetupMessage_raw sha256 S build server fpr numClientInputs hencrypt,
        PsiServer.createSetupMessage_raw sha256 S build server fpr numClientInputs hencrypt]
      rfl
    | gcs =>
      rw [PsiServer.createSetupMessage_gcs sha256 S build server fpr numClientInputs hencrypt,
        PsiServer.createSetupMessage_gcs sha256 S build server fpr numClientInputs hencrypt,
        StatusOr.bind_assoc, StatusOr.bind_assoc]
      rfl
    | bloomFilter =>
      rw [PsiServer.createSetupMessage_bloomFilter sha256 S build server fpr numClientInputs hencrypt,
        PsiServer.createSetupMessage_bloomFilter sha256 S build server fpr numClientInputs hencrypt,
        StatusOr.bind_assoc, StatusOr.bind_assoc]
      rfl

theorem PsiServer.setupMessage_raw (fpr : D) (numClientInputs : Int) {inputs encrypted : List Bytes}
    (hencrypt : inputs.mapM server.ecCipher.encrypt = .ok encrypted) :
    server.setupMessage sha256 S build fpr numClientInputs inputs .raw =
      .ok (.raw ⟨(sortedRaw S encrypted).encrypted⟩) := by
  rw [PsiServer.setupMessage, PsiServer.createSetupMessage_raw sha256 S build server fpr numClientInputs hencrypt]
  rfl

theorem PsiServer.processRequest_eq {request : Request}
    (h : request.revealIntersection = server.revealIntersection) :
    server.processRequest S build request =
      match request.encryptedElements.mapM server.ecCipher.reEncrypt with
      | .ok reencrypted =>
        .ok ⟨if server.revealIntersection then reencrypted else S.sort stringLess reencrypted⟩
      | .error e => .error e := by
  rw [PsiServer.processRequest, if_neg (by simp [Request.isInitialized]), if_neg (not_not.mpr h)]
  simp only [Build.transformElements_result]
  cases request.encryptedElements.mapM server.ecCipher.reEncrypt with
  | error e => rfl
  | ok reencrypted => cases server.revealIntersection <;> rfl

end Server

section Client
variable (sha256 : Bytes → Nat) (S : ComparisonSort) (build : Build) (client : PsiClient)

theorem PsiClient.createRequest_eq (inputs : List Bytes) :
    client.createRequest build inputs =
      match inputs.mapM client.ecCipher.encrypt with
      | .ok encrypted => .ok ⟨client.revealIntersection, encrypted⟩
      | .error e => .error e := by
  rw [PsiClient.createRequest]
  simp only [Build.transformElements_result]
  cases inputs.mapM client.ecCipher.encrypt <;> rfl

theorem PsiClient.decryptResponse_eq (serverSetup : ServerSetup) (serverResponse : Response) :
    client.decryptResponse build serverSetup serverResponse =
      StatusOr.ofExcept (serverResponse.encryptedElements.mapM client.ecCipher.decrypt) := by
  rw [PsiClient.decryptResponse, if_neg (by simp [ServerSetup.isInitialized]),
    if_neg (by simp [Response.isInitialized]), Build.transformElements_result]

variable {serverResponse : Response}

theorem PsiClient.processResponse_raw {plains : List Bytes}
    (hplains : serverResponse.encryptedElements.mapM client.ecCipher.decrypt = .ok plains)
    (info : RawInfo) :
    client.processResponse sha256 S build (.raw info) serverResponse =
      .ok (Raw.intersect S ⟨info.encryptedElements⟩ plains) := by
  rw [PsiClient.processResponse, PsiClient.decryptResponse_eq, hplains]
  rfl

theorem PsiClient.processResponse_gcs {plains : List Bytes}
    (hplains : serverResponse.encryptedElements.mapM client.ecCipher.decrypt = .ok plains)
    (info : GCSInfo) :
    client.processResponse sha256 S build (.gcs info) serverResponse = (do
      let container ← GCS.createFromProtobuf (.gcs info)
      StatusOr.ofOption (container.intersect sha256 S plains)) := by
  rw [PsiClient.processResponse, PsiClient.decryptResponse_eq, hplains]
  rfl

theorem PsiClient.processResponse_bloomFilter {plains : List Bytes}
    (hplains : serverResponse.encryptedElements.mapM client.ecCipher.decrypt = .ok plains)
    (info : BloomFilterInfo) :
    client.processResponse sha256 S build (.bloomFilter info) serverResponse = (do
      let container ← BloomFilter.createFromProtobuf (.bloomFilter info)
      StatusOr.ofOption (container.intersect sha256 plains)) := by
  rw [PsiClient.processResponse, PsiClient.decryptResponse_eq, hplains]
  rfl

theorem PsiClient.processResponse_error {e : Error}
    (hplains : serverResponse.encryptedElements.mapM client.ecCipher.decrypt = .error e)
    (serverSetup : ServerSetup) :
    client.processResponse sha256 S build serverSetup serverResponse = .error e := by
  rw [PsiClient.processResponse, PsiClient.decryptResponse_eq, hplains]
  rfl

/-- The count over a strictly ascending Raw setup is that of the setup's elements in the response. -/
theorem PsiClient.getIntersectionSize_raw {plains : List Bytes}
    (hplains : serverResponse.encryptedElements.mapM client.ecCipher.decrypt = .ok plains)
    {setup : List Bytes} (hascending : setup.Pairwise (· < ·)) :
    client.getIntersectionSize sha256 S build (.raw ⟨setup⟩) serverResponse =
      .ok (setup.countP (fun element => element ∈ plains)) := by
  have hraw : (Raw.mk setup).encrypted.Pairwise (· < ·) := hascending
  rw [PsiClient.getIntersectionSize, PsiClient.processResponse_raw sha256 S build client hplains,
    StatusOr.ok_bind, Raw.length_intersect S plains hraw]
  rfl

theorem PsiClient.getIntersectionSize_error {e : Error}
    (hplains : serverResponse.encryptedElements.mapM client.ecCipher.decrypt = .error e)
    (serverSetup : ServerSetup) :
    client.getIntersectionSize sha256 S build serverSetup serverResponse = .error e := by
  rw [PsiClient.getIntersectionSize, PsiClient.processResponse_error sha256 S build client hplains]
  rfl

/-- The table over an ascending Raw setup pairs the indices of equal elements. -/
theorem PsiClient.getAssociationTable_raw (hreveal : client.revealIntersection = true)
    {plains : List Bytes}
    (hplains : serverResponse.encryptedElements.mapM client.ecCipher.decrypt = .ok plains)
    {setup : List Bytes} (hascending : setup.Pairwise (· ≤ ·)) :
    ∃ table, client.getAssociationTable S build (.raw ⟨setup⟩) serverResponse = .ok table ∧
      table.1.length = table.2.length ∧
      (table.1.zip table.2).Perm (Raw.associationPairs plains setup) := by
  have hraw : (Raw.mk setup).encrypted.Pairwise (· ≤ ·) := hascending
  obtain ⟨table, htable, hlength, hpairs⟩ := Raw.getAssociationTable_spec S hraw plains
  refine ⟨table, ?_, hlength, hpairs⟩
  rw [PsiClient.getAssociationTable, if_neg (not_not.mpr hreveal),
    PsiClient.processResponseForAssociationTable, PsiClient.decryptResponse_eq, hplains,
    StatusOr.ofExcept_ok, StatusOr.ok_bind]
  dsimp only
  rw [Raw.createFromProtobuf, if_neg (by simp [ServerSetup.isInitialized]), StatusOr.ok_bind]
  exact congrArg StatusOr.ofOption htable

theorem PsiClient.getAssociationTable_error (hreveal : client.revealIntersection = true) {e : Error}
    (hplains : serverResponse.encryptedElements.mapM client.ecCipher.decrypt = .error e)
    (serverSetup : ServerSetup) :
    client.getAssociationTable S build serverSetup serverResponse = .error e := by
  rw [PsiClient.getAssociationTable, if_neg (not_not.mpr hreveal),
    PsiClient.processResponseForAssociationTable, PsiClient.decryptResponse_eq, hplains]
  rfl

end Client

end PrivateSetIntersection
