import PrivateSetIntersection.Datastructure.GcsRoundTrip
import PrivateSetIntersection.Datastructure.UntrustedRaw
import PrivateSetIntersection.Protocol.Answers

/-! What a client makes of a setup that no server made: a list in any order, a compressed set
of any bytes with any divisor and range, a filter of any length. -/
namespace PrivateSetIntersection
open Library

/-- Indices of a list of `n` elements, none of them twice. -/
structure Positions (n : Nat) (indices : List Nat) : Prop where
  nodup : indices.Nodup
  inside : ∀ i ∈ indices, i < n

theorem Positions.length_le {n : Nat} {indices : List Nat} (h : Positions n indices) : indices.length ≤ n := by
  have hsub := h.nodup.subperm fun i hi => List.mem_range.mpr (h.inside i hi)
  simpa using hsub.length_le

/-- A part of the indices, in an order of its own. -/
theorem Positions.of_sublist {n : Nat} {indices taken : List Nat} (hperm : indices.Perm (List.range' 0 n))
    (hsub : taken.Sublist indices) : Positions n taken where
  nodup := hsub.nodup (hperm.nodup_iff.mpr List.nodup_range')
  inside i hi := by
    have hmem := List.mem_range'_1.mp (hperm.mem_iff.mp (hsub.subset hi))
    omega

section Compressed
variable {ι : Type} (s : Bytes) (div : Int)

/-- What the decoder reports are entries of the array, each at most once: those it takes, it
has passed. -/
theorem Golomb.intersectFrom_sublist (fuel : Nat) (state : Golomb.Decoder) (arr : List (Int × ι))
    (res out : List ι) (h : Golomb.intersectFrom s div fuel state arr res = some out) :
    ∃ taken, taken.Sublist (arr.map Prod.snd) ∧ out = res ++ taken := by
  induction fuel generalizing state arr res with
  | zero => cases h
  | succ fuel ih =>
    rw [Golomb.intersectFrom] at h
    obtain ⟨next, -, h⟩ := Option.bind_eq_some_iff.mp h
    cases next with
    | none =>
      obtain rfl := Option.some.inj h
      exact ⟨[], List.nil_sublist _, (List.append_nil res).symm⟩
    | some state' =>
      dsimp only at h
      have hpassed : (arr.dropWhile (fun pair => decide (pair.1 < state'.prefixSum))).Sublist arr :=
        List.dropWhile_sublist _
      generalize arr.dropWhile (fun pair => decide (pair.1 < state'.prefixSum)) = rest at h hpassed
      have hsplit := @List.takeWhile_append_dropWhile _ (fun pair => decide (pair.1 = state'.prefixSum)) rest
      have hsub := hpassed.map Prod.snd
      rw [← hsplit, List.map_append] at hsub
      split at h
      · obtain rfl := Option.some.inj h
        exact ⟨_, (List.sublist_append_left _ _).trans hsub, rfl⟩
      · obtain ⟨taken, htaken, rfl⟩ := ih _ _ _ h
        exact ⟨_, ((List.Sublist.refl _).append htaken).trans hsub, List.append_assoc _ _ _⟩

theorem Golomb.golombIntersect_sublist {sortedArr : List (Int × ι)} {out : List ι}
    (h : Golomb.golombIntersect s div sortedArr = some out) : out.Sublist (sortedArr.map Prod.snd) := by
  rw [Golomb.golombIntersect] at h
  split at h
  · obtain rfl := Option.some.inj h
    exact List.nil_sublist _
  · obtain ⟨taken, htaken, rfl⟩ := Golomb.intersectFrom_sublist s div _ _ _ _ _ h
    exact htaken

end Compressed

section Received
variable (sha256 : Bytes → Nat) (bigNum : Int → Bytes → Option Int)

/-- `Hash` in a received range. What the third-party `BigNum` makes of a range that is not
positive is not said: any number, or an abort. -/
def GCS.hashReceived (input : Bytes) (hashRange : Int) : Option Int :=
  if 0 < hashRange then (hash sha256 input hashRange).map Int.ofNat else bigNum hashRange input

def GCS.intersectReceived (S : ComparisonSort) (gcs : GCS) (elements : List Bytes) : Option (List Nat) := do
  let hashes ← elements.zipIdx.mapM fun p => do
    let h ← hashReceived sha256 bigNum p.1 gcs.hashRange
    return (h, p.2)
  let hashes := S.sort (fun a b => decide (a.1 < b.1)) hashes
  Golomb.golombIntersect gcs.golomb gcs.div hashes

/-- `ProcessResponse` of any setup. -/
def PsiClient.processReceived (S : ComparisonSort) (build : Build) (client : PsiClient)
    (serverSetup : ServerSetup) (serverResponse : Response) : StatusOr (List Nat) :=
  match serverSetup with
  | .gcs _ => do
    let decrypted ← client.decryptResponse build serverSetup serverResponse
    let container ← GCS.createFromProtobuf serverSetup
    StatusOr.ofOption (container.intersectReceived sha256 bigNum S decrypted)
  | .raw _ | .bloomFilter _ | .dataStructureNotSet => client.processResponse sha256 S build serverSetup serverResponse

def PsiClient.receivedIntersection (S : ComparisonSort) (build : Build) (client : PsiClient)
    (serverSetup : ServerSetup) (serverResponse : Response) : StatusOr (List Nat) :=
  if ¬ client.revealIntersection then
    .error (invalidArgumentError
      "GetIntersection called on PsiClient with reveal_intersection == false")
  else client.processReceived sha256 bigNum S build serverSetup serverResponse

def PsiClient.receivedIntersectionSize (S : ComparisonSort) (build : Build) (client : PsiClient)
    (serverSetup : ServerSetup) (serverResponse : Response) : StatusOr Nat := do
  let intersection ← client.processReceived sha256 bigNum S build serverSetup serverResponse
  return intersection.length

/-- Where a range that is not positive aborts, the client's call is the one on the setups of a
server. -/
theorem PsiClient.processReceived_abort (S : ComparisonSort) (build : Build) (client : PsiClient)
    (setup : ServerSetup) (response : Response) :
    client.processReceived sha256 (fun _ _ => none) S build setup response =
      client.processResponse sha256 S build setup response := by
  have hhash (input : Bytes) (hashRange : Int) : GCS.hashReceived sha256 (fun _ _ => none) input hashRange =
      (GCS.hash sha256 input hashRange).map Int.ofNat := by
    by_cases hrange : 0 < hashRange
    · exact if_pos hrange
    · rw [GCS.hashReceived, GCS.hash, if_neg hrange, if_neg hrange]
      rfl
  have hintersect (gcs : GCS) (elements : List Bytes) :
      gcs.intersectReceived sha256 (fun _ _ => none) S elements = gcs.intersect sha256 S elements := by
    simp only [GCS.intersectReceived, GCS.intersect, hhash, Option.bind_eq_bind, Option.bind_map]
    rfl
  cases setup with
  | gcs info => simp only [PsiClient.processReceived, PsiClient.processResponse, hintersect]
  | raw info => rfl
  | bloomFilter info => rfl
  | dataStructureNotSet => rfl

end Received

section Containers
variable (sha256 : Bytes → Nat) (bigNum : Int → Bytes → Option Int) (S : ComparisonSort) {plains : List Bytes}
  {indices : List Nat}

theorem Raw.intersect_positions (raw : Raw) : Positions plains.length (raw.intersect S plains) := by
  obtain ⟨hnodup, hsound⟩ := Raw.intersect_sound S raw plains
  refine ⟨hnodup, fun i hi => ?_⟩
  obtain ⟨x, -, hx⟩ := hsound i hi
  exact (List.getElem?_eq_some_iff.mp hx).1

/-- Whatever the elements hash to, each goes with its own index. -/
theorem GCS.indices_of_hashes {hash : Bytes → Option Int} (elements : List Bytes) (start : Nat)
    {hashes : List (Int × Nat)} (h : ((elements.zipIdx start).mapM fun p => do
      let h ← hash p.1
      return (h, p.2)) = some hashes) : hashes.map Prod.snd = List.range' start elements.length := by
  induction elements generalizing start hashes with
  | nil =>
    obtain rfl := Option.some.inj h
    rfl
  | cons x elements ih =>
    rw [List.zipIdx_cons, List.mapM_cons] at h
    obtain ⟨pair, hpair, h⟩ := Option.bind_eq_some_iff.mp h
    obtain ⟨rest, hrest, h⟩ := Option.bind_eq_some_iff.mp h
    obtain ⟨value, -, hvalue⟩ := Option.bind_eq_some_iff.mp hpair
    obtain rfl := Option.some.inj hvalue
    obtain rfl := Option.some.inj h
    rw [List.map_cons, ih (start + 1) hrest, List.length_cons, List.range'_succ]

theorem GCS.intersectReceived_positions {gcs : GCS}
    (h : gcs.intersectReceived sha256 bigNum S plains = some indices) : Positions plains.length indices := by
  rw [GCS.intersectReceived] at h
  obtain ⟨hashes, hhashes, h⟩ := Option.bind_eq_some_iff.mp h
  have hperm := (S.perm (fun a b => decide (a.1 < b.1)) hashes).map Prod.snd
  rw [@GCS.indices_of_hashes (fun x => GCS.hashReceived sha256 bigNum x gcs.hashRange) plains 0 _ hhashes] at hperm
  exact .of_sublist hperm (Golomb.golombIntersect_sublist _ _ h)

/-- The filter's loop reports the indices it keeps in their order. -/
theorem BloomFilter.intersect_sublist (filter : BloomFilter) (elements : List Bytes) (start : Nat)
    (res out : List Nat)
    (h : (elements.zipIdx start).foldlM (fun res p => do
      let present ← filter.check sha256 p.1
      return if present then res ++ [p.2] else res) res = some out) :
    ∃ taken, taken.Sublist (List.range' start elements.length) ∧ out = res ++ taken := by
  induction elements generalizing start res with
  | nil =>
    obtain rfl := Option.some.inj h
    exact ⟨[], List.nil_sublist _, (List.append_nil res).symm⟩
  | cons x elements ih =>
    rw [List.zipIdx_cons, List.foldlM_cons] at h
    obtain ⟨res', hstep, h⟩ := Option.bind_eq_some_iff.mp h
    obtain ⟨present, -, hres⟩ := Option.bind_eq_some_iff.mp hstep
    obtain rfl := Option.some.inj hres
    obtain ⟨taken, htaken, rfl⟩ := ih (start + 1) _ h
    rw [List.length_cons, List.range'_succ]
    split
    · exact ⟨start :: taken, htaken.cons_cons start, by rw [List.append_assoc]; rfl⟩
    · exact ⟨taken, htaken.cons start, rfl⟩

theorem BloomFilter.intersect_positions {filter : BloomFilter}
    (h : filter.intersect sha256 plains = some indices) : Positions plains.length indices := by
  obtain ⟨taken, hsub, rfl⟩ := BloomFilter.intersect_sublist sha256 filter plains 0 [] indices h
  exact .of_sublist (.refl _) hsub

end Containers

section Answers
variable (sha256 : Bytes → Nat) (bigNum : Int → Bytes → Option Int) (S : ComparisonSort) (build : Build)
  (client : PsiClient) (setup : ServerSetup) (response : Response)

/-- Whichever container a setup names and whatever it holds, an answer is of positions. -/
theorem PsiClient.processReceived_positions {indices : List Nat}
    (h : client.processReceived sha256 bigNum S build setup response = .ok indices) :
    Positions response.encryptedElements.length indices := by
  cases setup with
  | raw info =>
    rw [PsiClient.processReceived, PsiClient.processResponse, PsiClient.decryptResponse_eq] at h
    obtain ⟨plains, hplains, h⟩ := StatusOr.bind_eq_ok.mp h
    obtain ⟨container, -, h⟩ := StatusOr.bind_eq_ok.mp h
    obtain rfl := StatusOr.ok.inj h
    rw [← Traversal.length_of_mapM_ok (StatusOr.ofExcept_eq_ok.mp hplains)]
    exact Raw.intersect_positions S container
  | gcs info =>
    rw [PsiClient.processReceived, PsiClient.decryptResponse_eq] at h
    obtain ⟨plains, hplains, h⟩ := StatusOr.bind_eq_ok.mp h
    obtain ⟨container, -, h⟩ := StatusOr.bind_eq_ok.mp h
    rw [← Traversal.length_of_mapM_ok (StatusOr.ofExcept_eq_ok.mp hplains)]
    exact GCS.intersectReceived_positions sha256 bigNum S (StatusOr.ofOption_eq_ok.mp h)
  | bloomFilter info =>
    rw [PsiClient.processReceived, PsiClient.processResponse, PsiClient.decryptResponse_eq] at h
    obtain ⟨plains, hplains, h⟩ := StatusOr.bind_eq_ok.mp h
    obtain ⟨container, -, h⟩ := StatusOr.bind_eq_ok.mp h
    rw [← Traversal.length_of_mapM_ok (StatusOr.ofExcept_eq_ok.mp hplains)]
    exact BloomFilter.intersect_positions sha256 (StatusOr.ofOption_eq_ok.mp h)
  | dataStructureNotSet =>
    rw [PsiClient.processReceived, PsiClient.processResponse] at h
    obtain ⟨plains, -, h⟩ := StatusOr.bind_eq_ok.mp h
    cases h

theorem PsiClient.receivedIntersection_positions {indices : List Nat}
    (h : client.receivedIntersection sha256 bigNum S build setup response = .ok indices) :
    Positions response.encryptedElements.length indices ∧
      client.receivedIntersectionSize sha256 bigNum S build setup response = .ok indices.length := by
  rw [PsiClient.receivedIntersection] at h
  split at h
  · cases h
  · refine ⟨PsiClient.processReceived_positions sha256 bigNum S build client setup response h, ?_⟩
    rw [PsiClient.receivedIntersectionSize, h]
    rfl

theorem PsiClient.receivedIntersectionSize_le {size : Nat}
    (h : client.receivedIntersectionSize sha256 bigNum S build setup response = .ok size) :
    size ≤ response.encryptedElements.length := by
  obtain ⟨indices, hindices, hsize⟩ := StatusOr.bind_eq_ok.mp h
  obtain rfl := StatusOr.ok.inj hsize
  exact (PsiClient.processReceived_positions sha256 bigNum S build client setup response hindices).length_le

theorem PsiClient.getIntersection_positions {indices : List Nat}
    (h : client.getIntersection sha256 S build setup response = .ok indices) :
    Positions response.encryptedElements.length indices := by
  rw [PsiClient.getIntersection, ← PsiClient.processReceived_abort] at h
  exact (PsiClient.receivedIntersection_positions sha256 (fun _ _ => none) S build client setup response h).1

theorem PsiClient.getIntersectionSize_le {size : Nat}
    (h : client.getIntersectionSize sha256 S build setup response = .ok size) :
    size ≤ response.encryptedElements.length := by
  rw [PsiClient.getIntersectionSize, ← PsiClient.processReceived_abort] at h
  exact PsiClient.receivedIntersectionSize_le sha256 (fun _ _ => none) S build client setup response h

/-- The rows of a table are of the response, and those they are paired with of the setup. -/
theorem PsiClient.getAssociationTable_positions {table : List Nat × List Nat}
    (h : client.getAssociationTable S build setup response = .ok table) :
    table.1.length = table.2.length ∧ (table.1.zip table.2).Nodup ∧
      ∀ p ∈ table.1.zip table.2, p.1 < response.encryptedElements.length ∧
        p.2 < setup.rawInfo.encryptedElements.length := by
  rw [PsiClient.getAssociationTable] at h
  split at h
  · cases h
  · rw [PsiClient.processResponseForAssociationTable, PsiClient.decryptResponse_eq] at h
    obtain ⟨plains, hplains, h⟩ := StatusOr.bind_eq_ok.mp h
    have hlength := Traversal.length_of_mapM_ok (StatusOr.ofExcept_eq_ok.mp hplains)
    cases setup with
    | raw info =>
      obtain ⟨found, hfound, hcolumns, hnodup, hsound⟩ :=
        Raw.getAssociationTable_sound S ⟨info.encryptedElements⟩ plains
      obtain ⟨container, hcontainer, h⟩ := StatusOr.bind_eq_ok.mp h
      obtain rfl := StatusOr.ok.inj hcontainer
      obtain rfl := Option.some.inj (hfound.symm.trans (StatusOr.ofOption_eq_ok.mp h))
      refine ⟨hcolumns, hnodup, fun p hp => ?_⟩
      obtain ⟨x, hx, hy⟩ := hsound p hp
      rw [← hlength]
      exact ⟨(List.getElem?_eq_some_iff.mp hx).1, (List.getElem?_eq_some_iff.mp hy).1⟩
    | gcs info => cases h
    | bloomFilter info => cases h
    | dataStructureNotSet => cases h

/-- A client that is given any setup and any response answers, if it does, with positions of
the response, each once, and with rows of the setup: no more elements are counted than were
asked about, whatever a range that no server sends makes of the hashes. -/
theorem untrusted_answers_stay_inside :
    (∀ indices, client.receivedIntersection sha256 bigNum S build setup response = .ok indices →
      indices.Nodup ∧ (∀ i ∈ indices, i < response.encryptedElements.length) ∧
      client.receivedIntersectionSize sha256 bigNum S build setup response = .ok indices.length) ∧
    (∀ size, client.receivedIntersectionSize sha256 bigNum S build setup response = .ok size →
      size ≤ response.encryptedElements.length) ∧
    ∀ table, client.getAssociationTable S build setup response = .ok table →
      table.1.length = table.2.length ∧ (table.1.zip table.2).Nodup ∧
      ∀ p ∈ table.1.zip table.2, p.1 < response.encryptedElements.length ∧
        p.2 < setup.rawInfo.encryptedElements.length := by
  refine ⟨fun indices h => ?_, fun size h => ?_, fun table h => ?_⟩
  · obtain ⟨hpositions, hsize⟩ :=
      PsiClient.receivedIntersection_positions sha256 bigNum S build client setup response h
    exact ⟨hpositions.nodup, hpositions.inside, hsize⟩
  · exact PsiClient.receivedIntersectionSize_le sha256 bigNum S build client setup response h
  · exact PsiClient.getAssociationTable_positions S build client setup response h

end Answers

end PrivateSetIntersection
