import PrivateSetIntersection.Protocol.Answers

/-! The protocol from both parties' inputs to the association table. -/
namespace PrivateSetIntersection
open Library

section Cipher
variable (server : PsiServer) (client : PsiClient) {serverInputs clientInputs : List Bytes}

/-- What the protocol needs of the cipher: taking the client's key off again leaves the
element under the server's key, and no two of the elements look alike there. -/
structure Commutes (serverInputs clientInputs : List Bytes) : Prop where
  encrypt : ∀ x ∈ serverInputs, ∃ y, server.ecCipher.encrypt x = .ok y
  commute : ∀ x ∈ clientInputs, ∃ a b y, client.ecCipher.encrypt x = .ok a ∧
    server.ecCipher.reEncrypt a = .ok b ∧ client.ecCipher.decrypt b = .ok y ∧
    server.ecCipher.encrypt x = .ok y
  injective : ∀ x y, x ∈ serverInputs ∨ x ∈ clientInputs → y ∈ serverInputs ∨ y ∈ clientInputs →
    server.ecCipher.encrypt x = server.ecCipher.encrypt y → x = y

variable {server client}

/-- The three operations along a list leave its encryptions under the server's key. -/
theorem Commutes.traverse (h : Commutes server client serverInputs clientInputs) :
    ∃ requested reencrypted plains, clientInputs.mapM client.ecCipher.encrypt = .ok requested ∧
      requested.mapM server.ecCipher.reEncrypt = .ok reencrypted ∧
      reencrypted.mapM client.ecCipher.decrypt = .ok plains ∧
      clientInputs.mapM server.ecCipher.encrypt = .ok plains := by
  have hcommute := h.commute
  clear h
  induction clientInputs with
  | nil => exact ⟨[], [], [], rfl, rfl, rfl, rfl⟩
  | cons x xs ih =>
    obtain ⟨a, b, y, ha, hb, hy, hx⟩ := hcommute x List.mem_cons_self
    obtain ⟨as, bs, ys, has, hbs, hys, hxs⟩ := ih fun x' hx' => hcommute x' (List.mem_cons_of_mem x hx')
    refine ⟨a :: as, b :: bs, y :: ys, ?_, ?_, ?_, ?_⟩
    · rw [Traversal.mapM_cons_ok ha, has]
    · rw [Traversal.mapM_cons_ok hb, hbs]
    · rw [Traversal.mapM_cons_ok hy, hys]
    · rw [Traversal.mapM_cons_ok hx, hxs]

end Cipher

section Rows
variable (S : ComparisonSort) {elements plains : List Bytes} {first second : List Nat}

/-- The table's setup indices, led through the permutation to the server's rows. -/
theorem rows_of_table (hlength : first.length = second.length)
    (htable : (first.zip second).Perm (Raw.associationPairs plains (sortedRaw S elements).encrypted)) :
    ∃ rows, second.mapM (fun k => (sortingPermutation S elements)[k]?) = some rows ∧
      (first.zip rows).Nodup ∧
      ∀ i j, (i, j) ∈ first.zip rows ↔ ∃ y, plains[i]? = some y ∧ elements[j]? = some y := by
  have hperm := sortingPermutation_perm S elements
  have hmem (i k : Nat) : (i, k) ∈ first.zip second ↔
      ∃ y, plains[i]? = some y ∧ (sortedRaw S elements).encrypted[k]? = some y := by
    rw [htable.mem_iff, Raw.mem_associationPairs]
  have hinside {i k : Nat} (h : (i, k) ∈ first.zip second) : k < elements.length := by
    obtain ⟨y, -, hk⟩ := (hmem i k).mp h
    rw [← (sortedRaw_perm S elements).length_eq]
    exact (List.getElem?_eq_some_iff.mp hk).1
  refine ⟨second.map (origin (sortingPermutation S elements)), Traversal.mapM_of_some fun k hk => ?_, ?_, ?_⟩
  · rw [← List.map_snd_zip hlength.ge, List.mem_map] at hk
    obtain ⟨⟨i, k⟩, hpair, rfl⟩ := hk
    exact getElem?_origin hperm (hinside hpair)
  · rw [List.zip_map_right]
    refine (htable.nodup_iff.mpr Raw.nodup_associationPairs).map_on ?_
    rintro ⟨i, k⟩ hik ⟨i', k'⟩ hik' heq
    obtain ⟨hi, horigin⟩ := Prod.mk.inj heq
    exact Prod.ext hi (origin_injOn hperm (hinside hik) (hinside hik') horigin)
  · intro i j
    rw [List.zip_map_right, List.mem_map]
    constructor
    · rintro ⟨⟨i', k⟩, hpair, heq⟩
      obtain ⟨rfl, rfl⟩ := Prod.mk.inj heq
      obtain ⟨y, hi, hk⟩ := (hmem i' k).mp hpair
      rw [sortedRaw_getElem? S elements (hinside hpair)] at hk
      exact ⟨y, hi, hk⟩
    · rintro ⟨y, hi, hj⟩
      obtain ⟨k, hlt, horigin⟩ := exists_origin hperm (List.getElem?_eq_some_iff.mp hj).1
      refine ⟨(i, k), (hmem i k).mpr ⟨y, hi, ?_⟩, congrArg (Prod.mk i) horigin⟩
      rw [sortedRaw_getElem? S elements hlt, horigin, hj]

end Rows

section Run
variable {D : Type} [DoubleArithmetic D] (sha256 : Bytes → Nat) (S S' : ComparisonSort)
  (build build' : Build) (fpr : D) (numClientInputs : Int) {server : PsiServer} {client : PsiClient}
  {serverInputs clientInputs : List Bytes}

/-- Both parties' calls, one after the other, end in a table that pairs every client row
with the server rows of the same input, each pair once. -/
theorem association_table_end_to_end (hserver : server.revealIntersection = true)
    (hclient : client.revealIntersection = true)
    (hcipher : Commutes server client serverInputs clientInputs) (p₀ : List Nat) :
    ∃ setup p request response table rows,
      server.createSetupMessage sha256 S build fpr numClientInputs serverInputs .raw (some p₀) =
        .ok (setup, some p) ∧
      client.createRequest build' clientInputs = .ok request ∧
      server.processRequest S build request = .ok response ∧
      client.getAssociationTable S' build' setup response = .ok table ∧
      table.1.length = table.2.length ∧ table.2.mapM (fun k => p[k]?) = some rows ∧
      (table.1.zip rows).Nodup ∧
      ∀ i j, (i, j) ∈ table.1.zip rows ↔ ∃ x, clientInputs[i]? = some x ∧ serverInputs[j]? = some x := by
  obtain ⟨elements, helements⟩ := Traversal.exists_mapM_ok_iff.mpr hcipher.encrypt
  obtain ⟨requested, reencrypted, plains, hrequested, hreencrypted, hplains, hclientInputs⟩ := hcipher.traverse
  have hrequest := PsiClient.createRequest_eq build' client clientInputs
  rw [hrequested] at hrequest
  have hresponse : server.processRequest S build ⟨client.revealIntersection, requested⟩ = .ok ⟨reencrypted⟩ := by
    rw [PsiServer.processRequest_eq S build server (hclient.trans hserver.symm), hreencrypted]
    dsimp only
    rw [if_pos hserver]
  obtain ⟨table, htable, hlength, hpairs⟩ :
      ∃ table, client.getAssociationTable S' build' (.raw ⟨(sortedRaw S elements).encrypted⟩) ⟨reencrypted⟩ =
        .ok table ∧ _ :=
    PsiClient.getAssociationTable_raw S' build' client hclient hplains (sortedRaw_ascending S elements)
  obtain ⟨rows, hrows, hnodup, hmem⟩ := rows_of_table S hlength hpairs
  refine ⟨_, _, _, _, table, rows,
    PsiServer.createSetupMessage_raw sha256 S build server fpr numClientInputs helements (some p₀),
    hrequest, hresponse, htable, hlength, hrows, hnodup, fun i j => ?_⟩
  rw [hmem]
  constructor
  · rintro ⟨y, hi, hj⟩
    obtain ⟨x, hx, hxy⟩ := (Traversal.getElem?_of_mapM_ok hclientInputs i y).mp hi
    obtain ⟨x', hx', hxy'⟩ := (Traversal.getElem?_of_mapM_ok helements j y).mp hj
    obtain rfl := hcipher.injective x x' (Or.inr (List.mem_of_getElem? hx))
      (Or.inl (List.mem_of_getElem? hx')) (hxy.trans hxy'.symm)
    exact ⟨x, hx, hx'⟩
  · rintro ⟨x, hi, hj⟩
    obtain ⟨y, hxy⟩ := hcipher.encrypt x (List.mem_of_getElem? hj)
    exact ⟨y, (Traversal.getElem?_of_mapM_ok hclientInputs i y).mpr ⟨x, hi, hxy⟩,
      (Traversal.getElem?_of_mapM_ok helements j y).mpr ⟨x, hj, hxy⟩⟩

/-- A key added to every byte: two such ciphers commute. -/
def xorCipher (key : UInt8) : ECCommutativeCipher where
  encrypt element := .ok (element.map (· ^^^ key))
  reEncrypt element := .ok (element.map (· ^^^ key))
  decrypt element := .ok (element.map (· ^^^ key))

/-- Repeats on both sides, and a server whose rows are out of order. -/
theorem association_table_end_to_end_repeated :
    ∃ setup p request response table rows,
      PsiServer.createSetupMessage (fun _ => 0) .insertion .sequential ⟨xorCipher 5, true⟩ (1 / 2 : ℚ) 1
        [[2], [1], [2]] .raw (some []) = .ok (setup, some p) ∧
      PsiClient.createRequest .sequential ⟨xorCipher 3, true⟩ [[2], [3], [2]] = .ok request ∧
      PsiServer.processRequest .insertion .sequential ⟨xorCipher 5, true⟩ request = .ok response ∧
      PsiClient.getAssociationTable .insertion .sequential ⟨xorCipher 3, true⟩ setup response = .ok table ∧
      table.1.length = table.2.length ∧ table.2.mapM (fun k => p[k]?) = some rows ∧
      (table.1.zip rows).Nodup ∧ ∀ i j, (i, j) ∈ table.1.zip rows ↔
        ∃ x, ([[2], [3], [2]] : List Bytes)[i]? = some x ∧ ([[2], [1], [2]] : List Bytes)[j]? = some x := by
  have hcommute (x : Bytes) : x.map (· ^^^ 5) = ((x.map (· ^^^ 3)).map (· ^^^ 5)).map (· ^^^ (3 : UInt8)) := by
    rw [List.map_map, List.map_map]
    refine List.map_congr_left fun byte _ => ?_
    rw [Function.comp_apply, Function.comp_apply, UInt8.xor_assoc, UInt8.xor_assoc, UInt8.xor_comm 5 3,
      ← UInt8.xor_assoc 3 3, UInt8.xor_self, UInt8.zero_xor]
  have hinjective : Function.Injective (fun x : Bytes => x.map (· ^^^ (5 : UInt8))) :=
    List.map_injective_iff.mpr fun _ _ h => UInt8.xor_left_inj 5 |>.mp h
  exact association_table_end_to_end (fun _ => 0) .insertion .insertion .sequential .sequential (1 / 2 : ℚ) 1 rfl rfl
    ⟨fun x _ => ⟨_, rfl⟩, fun x _ => ⟨_, _, _, rfl, rfl, rfl, congrArg Except.ok (hcommute x)⟩,
      fun _ _ _ _ h => hinjective (Except.ok.inj h)⟩ []

end Run

end PrivateSetIntersection
