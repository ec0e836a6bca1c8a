import PrivateSetIntersection.Library.BigEndian
import PrivateSetIntersection.Protocol.Exchange
import PrivateSetIntersection.Streaming.PsiMatch

/-! The parties' keys: how a party is made, what it gives of its key, and what is made from
the key while it works (the clones of `parallel_ec.cpp`, the matches of a client). -/
namespace PrivateSetIntersection
open Library

/-- The third-party cipher's functions on keys, on the curve and with the hash that all
parties use. A new key is a function of what is drawn for it. -/
structure CipherFactory where
  createWithNewKey : Nat → StatusOr ECCommutativeCipher
  createFromKey : Bytes → StatusOr ECCommutativeCipher
  getPrivateKeyBytes : ECCommutativeCipher → Bytes

namespace CipherFactory
variable (F : CipherFactory)

def Made (cipher : ECCommutativeCipher) : Prop :=
  (∃ draw, F.createWithNewKey draw = .ok cipher) ∨ ∃ key, F.createFromKey key = .ok cipher

/-- A key is a number: bytes are read with the high byte first, and a cipher gives the number
it was made from, on no more bytes than the order of the curve has. -/
structure Lawful : Prop where
  number : ∀ key key', BigEndian.value key = BigEndian.value key' → F.createFromKey key = F.createFromKey key'
  new : ∀ draw cipher, F.createWithNewKey draw = .ok cipher → ∃ key, F.createFromKey key = .ok cipher
  own : ∀ key cipher, F.createFromKey key = .ok cipher →
    BigEndian.value (F.getPrivateKeyBytes cipher) = BigEndian.value key
  short : ∀ key cipher, F.createFromKey key = .ok cipher → (F.getPrivateKeyBytes cipher).length ≤ 32

/-- `GetPrivateKeyBytes` of both parties. Of a longer key, `32 - key.length()` wraps and
`insert` throws. -/
def paddedKey (cipher : ECCommutativeCipher) : StatusOr Bytes :=
  let key := F.getPrivateKeyBytes cipher
  if key.length ≤ 32 then .ok (List.replicate (32 - key.length) 0 ++ key) else .undefined

end CipherFactory

section Parties
variable (F : CipherFactory)

def PsiServer.createWithNewKey (draw : Nat) (revealIntersection : Bool) : StatusOr PsiServer := do
  let ecCipher ← F.createWithNewKey draw
  return ⟨ecCipher, revealIntersection⟩

def PsiServer.createFromKey (keyBytes : Bytes) (revealIntersection : Bool) : StatusOr PsiServer := do
  let ecCipher ← F.createFromKey keyBytes
  return ⟨ecCipher, revealIntersection⟩

def PsiServer.getPrivateKeyBytes (server : PsiServer) : StatusOr Bytes := F.paddedKey server.ecCipher

def PsiClient.createWithNewKey (draw : Nat) (revealIntersection : Bool) : StatusOr PsiClient := do
  let ecCipher ← F.createWithNewKey draw
  return ⟨ecCipher, revealIntersection⟩

def PsiClient.createFromKey (keyBytes : Bytes) (revealIntersection : Bool) : StatusOr PsiClient := do
  let ecCipher ← F.createFromKey keyBytes
  return ⟨ecCipher, revealIntersection⟩

def PsiClient.getPrivateKeyBytes (client : PsiClient) : StatusOr Bytes := F.paddedKey client.ecCipher

/-- A party that one of its two functions made. -/
def MadeBy {Party : Type} (createWithNewKey : Nat → Bool → StatusOr Party)
    (createFromKey : Bytes → Bool → StatusOr Party) (party : Party) : Prop :=
  (∃ draw revealIntersection, createWithNewKey draw revealIntersection = .ok party) ∨
    ∃ keyBytes revealIntersection, createFromKey keyBytes revealIntersection = .ok party

def PsiServer.Made : PsiServer → Prop := MadeBy (PsiServer.createWithNewKey F) (PsiServer.createFromKey F)

def PsiClient.Made : PsiClient → Prop := MadeBy (PsiClient.createWithNewKey F) (PsiClient.createFromKey F)

def PsiMatch.create (key : Bytes) (revealIntersection : Bool) : StatusOr (ElementOp × PsiMatch) := do
  let cipher ← F.createFromKey key
  return (cipher.decrypt, .fresh revealIntersection)

def PsiClient.createMatch (client : PsiClient) : StatusOr (ElementOp × PsiMatch) :=
  PsiMatch.create F (F.getPrivateKeyBytes client.ecCipher) client.revealIntersection

/-- What shard `t` of a sharded transform works with: the first with the cipher itself, every
other with its own `CloneCipher`. -/
def shardCipher (cipher : ECCommutativeCipher) (t : Nat) : StatusOr ECCommutativeCipher :=
  if t = 0 then .ok cipher else F.createFromKey (F.getPrivateKeyBytes cipher)

end Parties

section Restored
variable {F : CipherFactory} {cipher : ECCommutativeCipher}

/-- A party of either kind was made if and only if its cipher was. -/
theorem madeBy_iff {Party : Type} {party : ECCommutativeCipher → Bool → Party} {ecCipher : Party → ECCommutativeCipher}
    {revealIntersection : Party → Bool} (hcipher : ∀ cipher reveal, ecCipher (party cipher reveal) = cipher)
    (hparty : ∀ made, party (ecCipher made) (revealIntersection made) = made) {made : Party} :
    MadeBy (fun draw reveal => F.createWithNewKey draw >>= fun cipher => .ok (party cipher reveal))
      (fun key reveal => F.createFromKey key >>= fun cipher => .ok (party cipher reveal)) made ↔
    F.Made (ecCipher made) := by
  have hmade {created : StatusOr ECCommutativeCipher} :
      (∃ reveal, (created >>= fun cipher => .ok (party cipher reveal)) = .ok made) ↔ created = .ok (ecCipher made) := by
    constructor
    · rintro ⟨reveal, h⟩
      obtain ⟨cipher, hcreated, h⟩ := StatusOr.bind_eq_ok.mp h
      rw [hcreated, ← StatusOr.ok.inj h, hcipher]
    · intro h
      refine ⟨revealIntersection made, ?_⟩
      rw [h, StatusOr.ok_bind, hparty]
  simp only [MadeBy, CipherFactory.Made, hmade]

theorem PsiServer.made_iff {server : PsiServer} : server.Made F ↔ F.Made server.ecCipher :=
  madeBy_iff (fun _ _ => rfl) fun _ => rfl

theorem PsiClient.made_iff {client : PsiClient} : client.Made F ↔ F.Made client.ecCipher :=
  madeBy_iff (fun _ _ => rfl) fun _ => rfl

theorem CipherFactory.Made.exists_key (hF : F.Lawful) (h : F.Made cipher) : ∃ key, F.createFromKey key = .ok cipher := by
  obtain ⟨draw, hdraw⟩ | hkey := h
  · exact hF.new draw cipher hdraw
  · exact hkey

/-- Every way to write a cipher's own number makes the cipher again. -/
theorem CipherFactory.Made.createFromKey (hF : F.Lawful) (h : F.Made cipher) {key : Bytes}
    (hkey : BigEndian.value key = BigEndian.value (F.getPrivateKeyBytes cipher)) : F.createFromKey key = .ok cipher := by
  obtain ⟨made, hmade⟩ := h.exists_key hF
  rw [hF.number key made (hkey.trans (hF.own made cipher hmade)), hmade]

theorem CipherFactory.Made.paddedKey (hF : F.Lawful) (h : F.Made cipher) :
    ∃ key, F.paddedKey cipher = .ok key ∧ key.length = 32 ∧
      BigEndian.value key = BigEndian.value (F.getPrivateKeyBytes cipher) := by
  obtain ⟨made, hmade⟩ := h.exists_key hF
  have hshort := hF.short made cipher hmade
  refine ⟨_, if_pos hshort, ?_, BigEndian.value_replicate_zero_append _ _⟩
  rw [List.length_append, List.length_replicate, Nat.sub_add_cancel hshort]

/-- All shards work with one key. -/
theorem CipherFactory.Made.shardCipher (hF : F.Lawful) (h : F.Made cipher) (t : Nat) :
    shardCipher F cipher t = .ok cipher := by
  rw [PrivateSetIntersection.shardCipher]
  split
  · rfl
  · exact h.createFromKey hF rfl

theorem PsiClient.createMatch_made (hF : F.Lawful) {client : PsiClient} (h : F.Made client.ecCipher) :
    client.createMatch F = .ok (client.ecCipher.decrypt, .fresh client.revealIntersection) := by
  rw [PsiClient.createMatch, PsiMatch.create, h.createFromKey hF rfl]
  rfl

end Restored

end PrivateSetIntersection
