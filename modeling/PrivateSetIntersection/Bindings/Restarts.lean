import PrivateSetIntersection.Bindings.CInterface
import PrivateSetIntersection.Protocol.PrivateKeys

/-! Parties that outlive their process: the C functions that make a context, give its key and
delete it, and an exchange in which every party is made again from its key at any point. -/
namespace PrivateSetIntersection
open Library

namespace CInterface

section Contexts
variable (malloc : Nat → Bool) (errorOut : Bool) (F : CipherFactory)

def psi_server_create_from_key (keyBytes : Bytes) (revealIntersection : Bool) : Returned (Option PsiServer) :=
  answered malloc errorOut do
    let server ← PsiServer.createFromKey F keyBytes revealIntersection
    return some server

def psi_client_create_from_key (keyBytes : Bytes) (revealIntersection : Bool) : Returned (Option PsiClient) :=
  answered malloc errorOut do
    let client ← PsiClient.createFromKey F keyBytes revealIntersection
    return some client

/-- The copy of a key into `*output`, which is allocated without a check. -/
def copyKey (value : Bytes) : StatusOr Bytes :=
  if value ≠ [] ∧ ¬ malloc value.length then .undefined else .ok value

def psi_server_get_private_key_bytes (ctx : Option PsiServer) : Returned Bytes :=
  answered malloc errorOut <|
    match ctx with
    | none => .error (invalidArgumentError "invalid server context")
    | some server => server.getPrivateKeyBytes F >>= copyKey malloc

def psi_client_get_private_key_bytes (ctx : Option PsiClient) : Returned Bytes :=
  answered malloc errorOut <|
    match ctx with
    | none => .error (invalidArgumentError "invalid client context")
    | some client => client.getPrivateKeyBytes F >>= copyKey malloc

/-- A process that ends and the one after it, which is given the key and the party's mode. -/
def restartServer (revealIntersection : Bool) (ctx : Option PsiServer) : Returned (Option PsiServer) := do
  let key ← psi_server_get_private_key_bytes malloc errorOut F ctx
  psi_server_create_from_key malloc errorOut F key revealIntersection

def restartClient (revealIntersection : Bool) (ctx : Option PsiClient) : Returned (Option PsiClient) := do
  let key ← psi_client_get_private_key_bytes malloc errorOut F ctx
  psi_client_create_from_key malloc errorOut F key revealIntersection

def restarts {Ctx : Type} (restart : Ctx → Returned Ctx) : Nat → Ctx → Returned Ctx
  | 0, ctx => .outputs ctx
  | n + 1, ctx => do
    let next ← restart ctx
    restarts restart n next

theorem restarts_same {Ctx : Type} {restart : Ctx → Returned Ctx} {ctx : Ctx} (h : restart ctx = .outputs ctx)
    (n : Nat) : restarts restart n ctx = .outputs ctx := by
  induction n with
  | zero => rfl
  | succ n ih => rw [restarts, h, Returned.outputs_bind, ih]

variable {malloc errorOut F}

theorem copyKey_ok (hmalloc : malloc 32 = true) {value : Bytes} (h : value.length = 32) :
    copyKey malloc value = .ok value := by
  rw [copyKey, h, hmalloc, if_neg]
  exact fun hne => hne.2 rfl

/-- A party of either kind, made from the key that its own cipher gives. -/
theorem restart_made (hF : F.Lawful) (hmalloc : malloc 32 = true) {cipher : ECCommutativeCipher}
    (h : F.Made cipher) {Party : Type} (party : ECCommutativeCipher → Party) :
    (answered malloc errorOut (F.paddedKey cipher >>= copyKey malloc) >>= fun key =>
      answered malloc errorOut ((F.createFromKey key >>= fun made => .ok (party made)) >>= fun made => .ok (some made)))
      = .outputs (some (party cipher)) := by
  obtain ⟨key, hpadded, hlength, hvalue⟩ := h.paddedKey hF
  rw [hpadded, StatusOr.ok_bind, copyKey_ok hmalloc hlength, answered, Returned.outputs_bind,
    h.createFromKey hF hvalue]
  rfl

theorem restartServer_made (hF : F.Lawful) (hmalloc : malloc 32 = true) {server : PsiServer}
    (h : F.Made server.ecCipher) :
    restartServer malloc errorOut F server.revealIntersection (some server) = .outputs (some server) :=
  restart_made hF hmalloc h (fun cipher => PsiServer.mk cipher server.revealIntersection)

theorem restartClient_made (hF : F.Lawful) (hmalloc : malloc 32 = true) {client : PsiClient}
    (h : F.Made client.ecCipher) :
    restartClient malloc errorOut F client.revealIntersection (some client) = .outputs (some client) :=
  restart_made hF hmalloc h (fun cipher => PsiClient.mk cipher client.revealIntersection)

end Contexts

section Exchange
variable (malloc : Nat → Bool) (errorOut : Bool) (F : CipherFactory) (pb : Protobufs) {D : Type} [DoubleArithmetic D]
  (sha256 : Bytes → Nat) (S : ComparisonSort) (build build' : Build)

structure Restarts where
  beforeSetup : Nat
  beforeRequest : Nat
  beforeResponse : Nat
  beforeAnswer : Nat

/-- The calls of an exchange, with what the parties keep between them: their keys. -/
def restartedExchange {α : Type} (answer : Option PsiClient → Bytes → Bytes → Returned α) (counts : Restarts)
    (server : PsiServer) (client : PsiClient) (fpr : D) (numClientInputs : Int)
    (serverInputs clientInputs : List Bytes) (datastructure : DataStructure) : Returned α := do
  let serverCtx ← restarts (restartServer malloc errorOut F server.revealIntersection) counts.beforeSetup (some server)
  let serverSetup ← psi_server_create_setup_message malloc errorOut pb sha256 S build serverCtx fpr numClientInputs
    serverInputs datastructure
  let clientCtx ← restarts (restartClient malloc errorOut F client.revealIntersection) counts.beforeRequest (some client)
  let clientRequest ← psi_client_create_request malloc errorOut pb build' clientCtx clientInputs
  let serverCtx ← restarts (restartServer malloc errorOut F server.revealIntersection) counts.beforeResponse serverCtx
  let serverResponse ← psi_server_process_request malloc errorOut pb S build serverCtx clientRequest
  let clientCtx ← restarts (restartClient malloc errorOut F client.revealIntersection) counts.beforeAnswer clientCtx
  answer clientCtx serverSetup serverResponse

variable {malloc F}

/-- Parties that come back from their exported keys, however often and at whichever points,
finish an exchange as they would have without, and a client's matches and shards still work
with its key. Nothing but the key has to be kept. -/
theorem restarts_change_nothing (hF : F.Lawful) (hmalloc : malloc 32 = true) {server : PsiServer}
    {client : PsiClient} (hserver : server.Made F) (hclient : client.Made F) {α : Type}
    (answer : Option PsiClient → Bytes → Bytes → Returned α) (counts : Restarts) (fpr : D) (numClientInputs : Int)
    (serverInputs clientInputs : List Bytes) (ds : DataStructure) :
    restartedExchange malloc errorOut F pb sha256 S build build' answer counts server client fpr numClientInputs
        serverInputs clientInputs ds =
      exchange malloc errorOut pb sha256 S build build' answer (some server) (some client) fpr numClientInputs
        serverInputs clientInputs ds ∧
    ∀ n, ∃ ctx, restarts (restartClient malloc errorOut F client.revealIntersection) n (some client) =
        .outputs (some ctx) ∧
      ctx.createMatch F = .ok (client.ecCipher.decrypt, .fresh client.revealIntersection) ∧
      ∀ t, shardCipher F ctx.ecCipher t = .ok client.ecCipher := by
  rw [PsiServer.made_iff] at hserver
  rw [PsiClient.made_iff] at hclient
  have hservers := restarts_same (@restartServer_made malloc errorOut F hF hmalloc server hserver)
  have hclients := restarts_same (@restartClient_made malloc errorOut F hF hmalloc client hclient)
  constructor
  · simp only [restartedExchange, exchange, hservers, hclients, Returned.outputs_bind]
  · intro n
    exact ⟨client, hclients n, PsiClient.createMatch_made hF hclient, hclient.shardCipher hF⟩

end Exchange

def pointFactory : CipherFactory :=
  let createFromKey (key : Bytes) : StatusOr ECCommutativeCipher :=
    if 0 < BigEndian.value key ∧ BigEndian.value key < 256 then .ok (pointCipher (UInt8.ofNat (BigEndian.value key)))
    else .error (invalidArgumentError "the key is out of bounds")
  { createWithNewKey := fun draw => createFromKey [UInt8.ofNat draw]
    createFromKey := createFromKey
    getPrivateKeyBytes := fun cipher => (cipher.encrypt [0]).toOption.getD [] }

theorem pointFactory_lawful : pointFactory.Lawful := by
  have hkey {key : Bytes} {cipher : ECCommutativeCipher} (h : pointFactory.createFromKey key = .ok cipher) :
      pointFactory.getPrivateKeyBytes cipher = [UInt8.ofNat (BigEndian.value key)] ∧ BigEndian.value key < 256 := by
    change (if _ then _ else _) = _ at h
    split at h <;> rename_i hvalue
    · cases h
      exact ⟨congrArg (fun byte => [byte]) UInt8.zero_xor, hvalue.2⟩
    · cases h
  refine ⟨fun key key' h => ?_, fun draw cipher h => ⟨_, h⟩, fun key cipher h => ?_, fun key cipher h => ?_⟩
  · change (if _ then _ else _) = (if _ then _ else _)
    rw [h]
  · obtain ⟨hown, hvalue⟩ := hkey h
    rw [hown, BigEndian.value, List.reverse_singleton, List.map_singleton, Nat.ofDigits_singleton]
    exact UInt8.toNat_ofNat_of_lt' hvalue
  · rw [(hkey h).1, List.length_singleton]
    decide

/-- A server and a client that end before each call. -/
theorem restarts_change_nothing_at_every_call :
    restartedExchange (fun _ => true) true pointFactory rawMessages (fun _ => 0) .insertion .sequential .sequential
        (psi_client_get_intersection_size (fun _ => true) true rawMessages (fun _ => 0) .insertion .sequential)
        ⟨1, 1, 2, 1⟩ ⟨pointCipher 5, true⟩ ⟨pointCipher 3, true⟩ (1 / 2 : ℚ) 3 [[2], [1]] [[2], [3], [2]] .raw =
      .outputs 1 ∧
      ∃ ctx, restarts (restartClient (fun _ => true) true pointFactory true) 3 (some ⟨pointCipher 3, true⟩) =
        .outputs (some ctx) ∧ (ctx.createMatch pointFactory).isOk := by
  have hserver : PsiServer.Made pointFactory ⟨pointCipher 5, true⟩ := .inr ⟨[0, 5], true, rfl⟩
  have hclient : PsiClient.Made pointFactory ⟨pointCipher 3, true⟩ := .inl ⟨3, true, rfl⟩
  obtain ⟨hexchange, hmatch⟩ := @restarts_change_nothing (fun _ => true) true pointFactory rawMessages ℚ _
    (fun _ => 0) .insertion .sequential .sequential pointFactory_lawful rfl ⟨pointCipher 5, true⟩
    ⟨pointCipher 3, true⟩ hserver hclient _
    (psi_client_get_intersection_size (fun _ => true) true rawMessages (fun _ => 0) .insertion .sequential)
    ⟨1, 1, 2, 1⟩ (1 / 2 : ℚ) 3 [[2], [1]] [[2], [3], [2]] .raw
  obtain ⟨ctx, hctx, hmade, -⟩ := hmatch 3
  refine ⟨hexchange.trans (by decide +kernel), ctx, hctx, ?_⟩
  rw [hmade]
  rfl

end CInterface

end PrivateSetIntersection
