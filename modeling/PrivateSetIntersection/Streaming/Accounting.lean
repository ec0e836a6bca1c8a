import PrivateSetIntersection.Protocol.Ledger
import PrivateSetIntersection.Streaming.Refinement

/-! The response phase outside the object: which elements the cipher is asked to decrypt, and
what is added to the progress slot, over any sequence of accepted calls. -/
namespace PrivateSetIntersection
open Library Automaton Interleaving

namespace PsiMatch

section Flushes
variable (build : Build) (decrypt : ElementOp)

def afterBatches (w : Surroundings) (batches : List (List Bytes)) : Surroundings :=
  batches.foldl (fun w batch => w.after (build.transformElements w.decryptCalls.length decrypt batch)) w

/-- What the cipher is asked for batch by batch, each at its moment. -/
def Called (batches logs : List (List Bytes)) : Prop :=
  List.Forall₂ (fun batch log => ∃ moment, (build.transformElements moment decrypt batch).calls = log) batches logs

structure Flushed (batch : List Bytes) : Prop where
  decrypts : ∃ plains, batch.mapM decrypt = .ok plains
  nonempty : batch ≠ []
  size : batch.length ≤ kBatchElements

variable {build decrypt}

theorem afterBatches_append (w : Surroundings) (batches batches' : List (List Bytes)) :
    afterBatches build decrypt w (batches ++ batches') =
      afterBatches build decrypt (afterBatches build decrypt w batches) batches' :=
  List.foldl_append

/-- The batch as a list of batches, an empty one left out. -/
def waiting (batch : List Bytes) : List (List Bytes) := if batch = [] then [] else [batch]

@[simp] theorem flatten_waiting (batch : List Bytes) : (waiting batch).flatten = batch := by
  rw [waiting]
  split <;> rename_i hbatch
  · exact hbatch.symm
  · exact List.flatten_singleton

theorem matchBatch_flushes {m m' : PsiMatch} {w w' : Surroundings}
    (h : matchBatch build decrypt (m, w) = (.ok, m', w')) (hsize : m.batch.length ≤ kBatchElements) :
    m'.batch = [] ∧ (∀ b ∈ waiting m.batch, Flushed decrypt b) ∧
      w' = afterBatches build decrypt w (waiting m.batch) := by
  rw [matchBatch] at h
  dsimp only at h
  rw [waiting]
  split at h <;> rename_i hbatch
  · cases h
    rw [if_pos hbatch]
    exact ⟨hbatch, fun b hb => absurd hb List.not_mem_nil, rfl⟩
  · have hresult := build.transformElements_result w.decryptCalls.length decrypt m.batch
    rw [if_neg hbatch]
    split at h <;> rename_i hpass
    · cases h
    · rename_i decrypted
      cases h
      refine ⟨rfl, fun b hb => ?_, rfl⟩
      rw [List.mem_singleton.mp hb]
      exact ⟨⟨decrypted, hresult.symm.trans hpass⟩, hbatch, hsize⟩

/-- An entry joins the batch, which is handed over when it is full. -/
theorem onResponseEntry_flushes {m m' : PsiMatch} {w w' : Surroundings} {element : Bytes}
    (hsize : m.batch.length < kBatchElements)
    (h : accepted (onResponseEntry build decrypt element (m, w)) = .ok (m', w')) :
    m'.batch.length < kBatchElements ∧ ∃ batches, batches.flatten ++ m'.batch = m.batch ++ [element] ∧
      (∀ b ∈ batches, Flushed decrypt b ∧ b.length = kBatchElements) ∧
      w' = afterBatches build decrypt w batches := by
  have hlength : (m.batch ++ [element]).length ≤ kBatchElements := by
    rw [List.length_append, List.length_singleton]
    omega
  rw [onResponseEntry] at h
  dsimp only at h
  split at h
  · cases h
  · split at h <;> rename_i hfull
    · have hflush (h : matchBatch build decrypt ({ m with batch := m.batch ++ [element] }, w) =
          (.ok, m', w')) := matchBatch_flushes h hlength
      generalize matchBatch build decrypt _ = answer at h hflush
      obtain ⟨_ | e, m'', w''⟩ := answer
      · cases h
        obtain ⟨hempty, hall, hw⟩ := hflush rfl
        rw [hempty]
        refine ⟨by decide, _, by rw [flatten_waiting, List.append_nil], fun b hb => ⟨hall b hb, ?_⟩, hw⟩
        rw [waiting] at hb
        split at hb
        · exact absurd hb List.not_mem_nil
        · rw [List.mem_singleton.mp hb]
          exact Nat.le_antisymm hlength hfull
      · cases h
    · cases h
      exact ⟨not_le.mp hfull, [], rfl, fun b hb => absurd hb List.not_mem_nil, rfl⟩

end Flushes

section Pieces
variable {build : Build} {decrypt : ElementOp} {reveal : Bool} {setup : List Bytes}

/-- The reader of a piece beside the plain reading: what has been handed over since the piece
began was decrypted, or waits in the batch. -/
private def Handed (build : Build) (decrypt : ElementOp) (w : Surroundings) (before : List Bytes)
    (reader : Reading × PsiMatch × Surroundings) (state : Reading × List Bytes) : Prop :=
  reader.1 = state.1 ∧ reader.2.1.batch.length < kBatchElements ∧
    ∃ batches, state.2 = before ++ (batches.flatten ++ reader.2.1.batch) ∧
      (∀ b ∈ batches, Flushed decrypt b ∧ b.length = kBatchElements) ∧
      reader.2.2 = afterBatches build decrypt w batches

private theorem readByte_hands {w : Surroundings} {before : List Bytes}
    (reader : Reading × PsiMatch × Surroundings) (state : Reading × List Bytes) (byte : UInt8)
    (reader' : Reading × PsiMatch × Surroundings) (state' : Reading × List Bytes)
    (h : Handed build decrypt w before reader state)
    (hreader : readEntryByte (onResponseEntry build decrypt) reader byte = .ok reader')
    (hstate : readByte takeEntry state byte = .ok state') :
    Handed build decrypt w before reader' state' := by
  obtain ⟨ρ, m, w₁⟩ := reader
  obtain ⟨ρ', entries⟩ := state
  obtain ⟨hρ, hsize, batches, hentries, hall, hw⟩ := h
  dsimp only at hρ hsize hentries hw
  subst hρ
  rw [readEntryByte] at hreader
  cases hnext : ρ.next byte with
  | error e =>
    rw [readByte_error hnext] at hreader
    cases hreader
  | ok answer =>
    obtain ⟨ρ', out⟩ := answer
    cases out with
    | none =>
      rw [readByte_none hnext] at hreader hstate
      cases hreader
      cases hstate
      exact ⟨rfl, hsize, batches, hentries, hall, hw⟩
    | some entry =>
      rw [readByte_some hnext] at hreader hstate
      cases hon : accepted (onResponseEntry build decrypt entry (m, w₁)) with
      | error e =>
        rw [hon] at hreader
        cases hreader
      | ok s =>
        obtain ⟨m', w'⟩ := s
        rw [hon] at hreader
        cases hreader
        rw [takeEntry] at hstate
        split at hstate
        · cases hstate
        · rename_i htake
          split at htake <;> cases htake
          cases hstate
          obtain ⟨hsize', batches', hbatches', hall', hw'⟩ := onResponseEntry_flushes hsize hon
          refine ⟨rfl, hsize', batches ++ batches', ?_, ?_, ?_⟩
          · dsimp only
            rw [hentries, List.flatten_append, List.append_assoc batches.flatten, hbatches',
              List.append_assoc, List.append_assoc]
          · intro b hb
            exact (List.mem_append.mp hb).elim (hall b) (hall' b)
          · dsimp only
            rw [hw', hw, afterBatches_append]

/-- An accepted call decrypts the entries its bytes complete, in full batches but the last. -/
theorem matchResponsePiece_flushes {s s' : PsiMatch × Surroundings} {state state' : Reading × List Bytes}
    {piece : Bytes} (h : Between decrypt reveal setup s state)
    (hcall : accepted (matchResponsePiece build decrypt s piece) = .ok s')
    (hrun : run (readByte takeEntry) state piece = .ok state') :
    ∃ batches, state'.2 = state.2 ++ batches.flatten ∧ (∀ b ∈ batches, Flushed decrypt b) ∧
      (∀ b ∈ batches.dropLast, b.length = kBatchElements) ∧
      s'.2 = afterBatches build decrypt s.2 batches := by
  obtain ⟨m, w⟩ := s
  obtain ⟨ρ, entries⟩ := state
  obtain ⟨hreading, hmatching, hempty⟩ := h
  dsimp only at hreading hmatching hempty
  subst hreading
  have hstart : Handed build decrypt w entries (m.responseReader.reading, m, w)
      (m.responseReader.reading, entries) := by
    refine ⟨rfl, ?_, [], ?_, fun b hb => absurd hb List.not_mem_nil, rfl⟩
    · rw [hempty]
      decide
    · rw [hempty]
      exact (List.append_nil _).symm
  have hfed := EntryReader.feed_reads (onResponseEntry build decrypt) piece m.responseReader (m, w)
  simp only [matchResponsePiece, hmatching.failure, hmatching.phase, reduceCtorEq, if_false] at hcall
  generalize EntryReader.feed (onResponseEntry build decrypt) m.responseReader (m, w) piece = answer at hfed hcall
  generalize hread : run (readEntryByte (onResponseEntry build decrypt)) (m.responseReader.reading, m, w) piece
    = read at hfed
  cases hfed with
  | error e reader s => cases hcall
  | ok reader s =>
    obtain ⟨m₁, w₁⟩ := s
    obtain ⟨-, hsize, batches, hentries, hall, hw⟩ := run_lockstep readByte_hands hstart hread hrun
    dsimp only at hsize hentries hw hcall
    have hflush (m' : PsiMatch) (w' : Surroundings)
        (h : matchBatch build decrypt ({ m₁ with responseReader := reader }, w₁) = (.ok, m', w')) :=
      matchBatch_flushes h hsize.le
    generalize matchBatch build decrypt _ = answer at hcall hflush
    obtain ⟨_ | e, m₂, w₂⟩ := answer
    · cases hcall
      obtain ⟨-, hall', hw'⟩ := hflush _ _ rfl
      dsimp only at hall' hw'
      refine ⟨batches ++ waiting m₁.batch, ?_, ?_, ?_, ?_⟩
      · rw [hentries, List.flatten_append, flatten_waiting]
      · intro b hb
        exact (List.mem_append.mp hb).elim (fun hb => (hall b hb).1) (hall' b)
      · intro b hb
        rw [waiting] at hb
        split at hb
        · rw [List.append_nil] at hb
          exact (hall b (List.mem_of_mem_dropLast hb)).2
        · rw [List.dropLast_concat] at hb
          exact (hall b hb).2
      · rw [hw', hw, afterBatches_append]
    · cases hcall

end Pieces

section Slot
variable {build : Build} {decrypt : ElementOp}

theorem afterBatches_decryptCalls (w : Surroundings) (batches : List (List Bytes)) :
    ∃ logs, Called build decrypt batches logs ∧
      (afterBatches build decrypt w batches).decryptCalls = w.decryptCalls ++ logs.flatten := by
  induction batches generalizing w with
  | nil => exact ⟨[], .nil, (List.append_nil _).symm⟩
  | cons batch batches ih =>
    obtain ⟨logs, hcalled, hdecrypts⟩ := ih (w.after (build.transformElements w.decryptCalls.length decrypt batch))
    refine ⟨_ :: logs, .cons ⟨w.decryptCalls.length, rfl⟩ hcalled, ?_⟩
    rw [afterBatches, List.foldl_cons, ← afterBatches, hdecrypts, List.flatten_cons, ← List.append_assoc]
    rfl

/-- Every element of the batches is added to the slot, which counts modulo `2 ^ 32`. -/
theorem afterBatches_progress (build : Build) {w : Surroundings} {start : Int} (hslot : w.progress = some start)
    (hword : start.bmod (2 ^ 32) = start) {batches : List (List Bytes)}
    (hall : ∀ b ∈ batches, Flushed decrypt b) :
    (afterBatches build decrypt w batches).progress =
      some ((start + batches.flatten.length).bmod (2 ^ 32)) := by
  induction batches using List.reverseRecOn with
  | nil => exact hslot.trans (congrArg some (by rw [List.flatten_nil]; simpa using hword.symm))
  | append_singleton batches batch ih =>
    obtain ⟨plains, hplains⟩ := (hall batch (by simp)).decrypts
    have hpass := (build.transformElements_complete (afterBatches build decrypt w batches).decryptCalls.length
      hplains).published
    have hbefore := ih fun b hb => hall b (by simp [hb])
    rw [afterBatches_append, List.flatten_append, List.flatten_singleton, List.length_append]
    refine (congrArg (Option.map _) hbefore).trans ?_
    rw [Option.map_some, hpass, Int.bmod_add_bmod, Nat.cast_add, add_assoc]

end Slot

section Calls
variable (build : Build) (decrypt : ElementOp)

/-- A call of `MatchResponsePiece`: its window, and the progress slot if it is not that of
the call before. -/
structure PieceCall where
  bytes : Bytes
  slot : Option (Option Int) := none

def makeCall (s : PsiMatch × Surroundings) (c : PieceCall) : Except Error (PsiMatch × Surroundings) :=
  accepted (matchResponsePiece build decrypt
    (s.1, { s.2 with progress := c.slot.getD s.2.progress }) c.bytes)

def windowsOf (calls : List PieceCall) : Bytes := (calls.map PieceCall.bytes).flatten

variable {build decrypt} {reveal : Bool} {setup : List Bytes}

/-- The calls are the plain reading of their bytes, whatever the slots. -/
theorem run_makeCall_matches (build : Build) (hascending : setup.Pairwise (· < ·)) (hsetup : setup.length ≤ 2 ^ 32)
    {s : PsiMatch × Surroundings} {state : Reading × List Bytes}
    (h : Between decrypt reveal setup s state) (calls : List PieceCall) :
    Refines (Between decrypt reveal setup) (fun state => Undecryptable decrypt state.2)
      (run (makeCall build decrypt) s calls) (run (readByte takeEntry) state (windowsOf calls)) := by
  rw [windowsOf, ← run_windows, run_map]
  refine Refines.run (fun s state c h => ?_) ?_ h calls
  · exact matchResponsePiece_matches build hascending hsetup
      (s.1, { s.2 with progress := c.slot.getD s.2.progress }) state c.bytes h
  · intro state c next hdoomed hnext
    exact run_preserves _ undecryptable_lasts hdoomed hnext

/-- What accepted calls decrypt is what their bytes complete. -/
theorem run_makeCall_flushes (hascending : setup.Pairwise (· < ·)) (hsetup : setup.length ≤ 2 ^ 32)
    {s s' : PsiMatch × Surroundings} {state state' : Reading × List Bytes} {calls : List PieceCall}
    (h : Between decrypt reveal setup s state) (hcalls : run (makeCall build decrypt) s calls = .ok s')
    (hrun : run (readByte takeEntry) state (windowsOf calls) = .ok state') :
    ∃ batches logs, state'.2 = state.2 ++ batches.flatten ∧ (∀ b ∈ batches, Flushed decrypt b) ∧
      Called build decrypt batches logs ∧ s'.2.decryptCalls = s.2.decryptCalls ++ logs.flatten ∧
      ((∀ c ∈ calls, c.slot = none) → s'.2 = afterBatches build decrypt s.2 batches) := by
  induction calls generalizing s state with
  | nil =>
    cases hcalls
    cases hrun
    exact ⟨[], [], (List.append_nil _).symm, fun b hb => absurd hb List.not_mem_nil, .nil,
      (List.append_nil _).symm, fun _ => rfl⟩
  | cons c calls ih =>
    cases hmake : makeCall build decrypt s c with
    | error e =>
      rw [run_cons_error _ hmake] at hcalls
      cases hcalls
    | ok s₁ =>
      rw [run_cons_ok _ hmake] at hcalls
      have hpiece := matchResponsePiece_matches build hascending hsetup
        (s.1, { s.2 with progress := c.slot.getD s.2.progress }) state c.bytes h
      rw [makeCall] at hmake
      rw [hmake] at hpiece
      obtain ⟨state₁, hread, hbetween⟩ := hpiece
      rw [windowsOf, List.map_cons, List.flatten_cons, run_append_ok _ hread] at hrun
      obtain ⟨batches, hentries, hall, -, hw⟩ := matchResponsePiece_flushes
        (s := (s.1, { s.2 with progress := c.slot.getD s.2.progress })) h hmake hread
      obtain ⟨logs, hcalled, hlogs⟩ := @afterBatches_decryptCalls build decrypt
        { s.2 with progress := c.slot.getD s.2.progress } batches
      obtain ⟨batches', logs', hentries', hall', hcalled', hdecrypts, hslots⟩ := ih hbetween hcalls hrun
      refine ⟨batches ++ batches', logs ++ logs', ?_, ?_, List.rel_append hcalled hcalled', ?_, fun hnone => ?_⟩
      · rw [hentries', hentries, List.flatten_append, List.append_assoc]
      · intro b hb
        exact (List.mem_append.mp hb).elim (hall b) (hall' b)
      · rw [hdecrypts, hw, hlogs, List.flatten_append, List.append_assoc]
      · obtain ⟨hc, hrest⟩ := List.forall_mem_cons.mp hnone
        rw [hslots hrest, hw, afterBatches_append, hc]
        rfl

end Calls

section Accounted
variable {build : Build} {decrypt : ElementOp} {reveal : Bool}

/-- Elements that go through the cipher batch by batch, and a batch in shards or, if it is
small, as it is. -/
def InBatches (elements calls : List Bytes) : Prop :=
  ∃ batches logs : List (List Bytes), batches.flatten = elements ∧ logs.flatten = calls ∧
    List.Forall₂ (fun batch log => batch ≠ [] ∧ batch.length ≤ kBatchElements ∧ Sharded batch log ∧
      (batch.length < ParallelEc.kMinInputsForThreads → log = batch)) batches logs

theorem InBatches.perm {elements calls : List Bytes} (h : InBatches elements calls) :
    calls.Perm elements := by
  obtain ⟨batches, logs, rfl, rfl, hall⟩ := h
  exact (List.Perm.flatten_congr (hall.imp fun batch log hbatch => hbatch.2.2.1.perm.symm)).symm

/-- The passes over the batches call the cipher in batches, and without threads in order. -/
theorem inBatches_of_flushed {batches logs : List (List Bytes)} (hall : ∀ b ∈ batches, Flushed decrypt b)
    (hcalled : Called build decrypt batches logs) :
    InBatches batches.flatten logs.flatten ∧ (build = .sequential → logs.flatten = batches.flatten) := by
  have hpasses := (List.forall₂_and_left _ _).mpr ⟨hall, hcalled⟩
  constructor
  · refine ⟨batches, logs, rfl, rfl, hpasses.imp fun batch log h => ?_⟩
    obtain ⟨hflushed, moment, rfl⟩ := h
    obtain ⟨plains, hplains⟩ := hflushed.decrypts
    have hcalls := (build.transformElements_complete moment hplains).calls
    exact ⟨hflushed.nonempty, hflushed.size, hcalls, hcalls.inOrder⟩
  · rintro rfl
    have hsame : List.Forall₂ Eq batches logs := by
      refine hpasses.imp fun batch log h => ?_
      obtain ⟨hflushed, moment, rfl⟩ := h
      obtain ⟨plains, hplains⟩ := hflushed.decrypts
      exact (Build.transformElements_sequential moment hplains).symm
    rw [List.forall₂_eq_eq_eq] at hsame
    rw [hsame]

/-- The slot goes up by `n`, in 32 bits. -/
def CountedUp (before after : Option Int) (n : Nat) : Prop :=
  ∀ start : Int, before = some start → -2 ^ 31 ≤ start → start < 2 ^ 31 →
    after = some ((start + n).bmod (2 ^ 32)) ∧ (start + n < 2 ^ 31 → after = some (start + n))

/-- What has become of a sealed object `m` and its surroundings `w` after calls that complete
the entries, whose decryptions are the plains. -/
structure Accounted (build : Build) (decrypt : ElementOp) (m : PsiMatch) (w : Surroundings)
    (entries plains : List Bytes) (s : PsiMatch × Surroundings) : Prop where
  batch : s.1.batch = []
  decryptedCount : s.1.decryptedCount = entries.length
  decrypted : entries.mapM decrypt = .ok plains
  decryptCalls : ∃ calls, s.2.decryptCalls = w.decryptCalls ++ calls ∧ calls.Perm entries ∧
    InBatches entries calls ∧ (build = .sequential → calls = entries)
  matchedSetup : ∀ k, WordBitmap.bitAt 64 s.1.matchedSetup k = true ↔
    k < m.setupSize ∧ m.setupElement k ∈ plains
  responseIndices : m.revealIntersection = true → s.1.responseIndices.Pairwise (· < ·) ∧
    ∀ i, i ∈ s.1.responseIndices ↔
      ∃ plain, plains[i]? = some plain ∧ ∃ k < m.setupSize, m.setupElement k = plain
  bounded : ∀ i ∈ s.1.responseIndices, i < entries.length ∧ i < 2 ^ 32

/-- The recorded indices are those of the plains in the setup, in order. -/
theorem mem_matchedPairs_fst {setup plains : List Bytes} (hnodup : setup.Nodup) (i : Nat) :
    i ∈ (matchedPairs setup plains).map Prod.fst ↔
      ∃ plain, plains[i]? = some plain ∧ plain ∈ setup := by
  rw [List.mem_map]
  constructor
  · rintro ⟨p, hp, rfl⟩
    obtain ⟨plain, hplain, hsetup⟩ := (mem_matchedPairs hnodup).mp hp
    exact ⟨plain, hplain, List.mem_of_getElem? hsetup⟩
  · rintro ⟨plain, hplain, hmem⟩
    exact ⟨(i, setup.idxOf plain), (mem_matchedPairs hnodup).mpr ⟨plain, hplain, List.getElem?_idxOf hmem⟩, rfl⟩

/-- An object between two calls, against the sealed object it was. -/
theorem Between.accounted {m : PsiMatch} {setup : List Bytes} (hsealed : Sealed reveal m setup)
    (hascending : setup.Pairwise (· < ·)) {w : Surroundings} {s : PsiMatch × Surroundings} {ρ : Reading}
    {entries calls : List Bytes} (h : Between decrypt reveal setup s (ρ, entries))
    (hdecrypts : s.2.decryptCalls = w.decryptCalls ++ calls) (hbatches : InBatches entries calls)
    (hsequential : build = .sequential → calls = entries) :
    ∃ plains, Accounted build decrypt m w entries plains s := by
  obtain ⟨-, hmatching, hempty⟩ := h
  obtain ⟨done, plains, hentries, hdone, hcount, hrecorded⟩ := hmatching.progress
  dsimp only at hentries
  rw [hempty, List.append_nil] at hentries
  subst hentries
  have hlength := Traversal.length_of_mapM_ok hdone
  have hnodup : setup.Nodup := hascending.imp ne_of_lt
  have hsize : m.setupSize = setup.length := hsealed.stores.count
  have hstored (plain : Bytes) : (∃ k < m.setupSize, m.setupElement k = plain) ↔ plain ∈ setup := by
    rw [List.mem_iff_getElem, hsize]
    constructor
    · rintro ⟨k, hk, rfl⟩
      exact ⟨k, hk, (hsealed.stores.setupElement hk).symm⟩
    · rintro ⟨k, hk, rfl⟩
      exact ⟨k, hk, hsealed.stores.setupElement hk⟩
  refine ⟨plains, hempty, hcount, hdone, ⟨calls, hdecrypts, hbatches.perm, hbatches, hsequential⟩, ?_, ?_, ?_⟩
  · intro k
    rw [hrecorded.bits, decide_eq_true_iff, hsize]
    constructor
    · rintro ⟨hk, hmem⟩
      exact ⟨hk, (hsealed.stores.setupElement hk).symm ▸ hmem⟩
    · rintro ⟨hk, hmem⟩
      exact ⟨hk, hsealed.stores.setupElement hk ▸ hmem⟩
  · intro hreveal
    rw [hsealed.untouched.revealIntersection] at hreveal
    rw [hrecorded.responseIndices, if_pos hreveal]
    refine ⟨List.pairwise_map.mpr (matchedPairs_ascending setup plains), fun i => ?_⟩
    rw [mem_matchedPairs_fst hnodup]
    exact exists_congr fun plain => and_congr_right fun _ => (hstored plain).symm
  · intro i hi
    have hbounded := hmatching.bounded
    rw [kMaxElements] at hbounded
    rw [hrecorded.responseIndices] at hi
    split at hi
    · obtain ⟨plain, hplain, -⟩ := (mem_matchedPairs_fst hnodup i).mp hi
      have hlt := (List.getElem?_eq_some_iff.mp hplain).1
      dsimp only at hbounded
      omega
    · exact absurd hi List.not_mem_nil

/-- A sealed match after any accepted calls: each completed entry has been decrypted once, and
counted where it is. -/
theorem response_accounting {windows : List Bytes} {m : PsiMatch} {w : Surroundings}
    {calls : List PieceCall} {s : PsiMatch × Surroundings}
    (hsealed : setupPhase { revealIntersection := reveal } windows = .ok m)
    (hcalls : run (makeCall build decrypt) (m, w) calls = .ok s) :
    ∃ entries plains, (∀ es, Completed (windowsOf calls) es ↔ es = entries) ∧
      Accounted build decrypt m w entries plains s ∧
      ((∀ c ∈ calls, c.slot = none) → CountedUp w.progress s.2.progress entries.length) := by
  obtain ⟨setup, hgrammar, hsealed⟩ := setupPhase_sealed hsealed
  have hbetween : Between decrypt reveal setup (m, w) (.tag, []) := hsealed.between w
  have hmatches := run_makeCall_matches build hgrammar.ascending hgrammar.length_le hbetween calls
  rw [hcalls] at hmatches
  obtain ⟨⟨ρ, entries⟩, hread, hafter⟩ := hmatches
  obtain ⟨batches, logs, hentries, hall, hcalled, hdecrypts, hslots⟩ :=
    run_makeCall_flushes hgrammar.ascending hgrammar.length_le hbetween hcalls hread
  dsimp only at hentries
  rw [List.nil_append] at hentries
  subst hentries
  obtain ⟨hbatches, hsequential⟩ := inBatches_of_flushed hall hcalled
  obtain ⟨plains, haccounted⟩ := hafter.accounted hsealed hgrammar.ascending hdecrypts hbatches hsequential
  have hcompleted := completed_of_run hread
  refine ⟨_, plains, fun es => ⟨fun h => h.unique hcompleted, fun h => h ▸ hcompleted⟩, haccounted, ?_⟩
  intro hnone start hslot hlo hhi
  have hword : start.bmod (2 ^ 32) = start := Int.bmod_eq_of_le (by omega) (by omega)
  have hprogress := afterBatches_progress build hslot hword hall
  rw [hslots hnone]
  refine ⟨hprogress, fun hfits => ?_⟩
  rw [hprogress, Int.bmod_eq_of_le (by omega) (by omega)]

/-- A sealed object and calls on it are accepted, if the setup is one and the response is
entries that decrypt. -/
theorem exists_run_makeCall (build : Build) (decrypt : ElementOp) (reveal : Bool) (w : Surroundings)
    {windows setup : List Bytes} (hgrammar : SetupGrammar windows.flatten setup) {calls : List PieceCall}
    {state : Reading × List Bytes} (hread : run (readByte takeEntry) (.tag, []) (windowsOf calls) = .ok state)
    {plains : List Bytes} (hplains : state.2.mapM decrypt = .ok plains) :
    ∃ m s, setupPhase { revealIntersection := reveal } windows = .ok m ∧ Sealed reveal m setup ∧
      run (makeCall build decrypt) (m, w) calls = .ok s := by
  obtain ⟨m, hm, hsealed⟩ := exists_setupPhase reveal hgrammar
  have hbetween : Between decrypt reveal setup (m, w) (.tag, []) := hsealed.between w
  have hmatches := run_makeCall_matches build hgrammar.ascending hgrammar.length_le hbetween calls
  cases hcalls : run (makeCall build decrypt) (m, w) calls with
  | ok s => exact ⟨m, s, hm, hsealed, hcalls⟩
  | error e =>
    rw [hcalls] at hmatches
    obtain ⟨e', he'⟩ := hmatches _ hread
    rw [hplains] at he'
    cases he'

/-- One entry in two windows, and the start of another. -/
theorem response_accounting_cut : ∃ m s,
    setupPhase { revealIntersection := true } [[0x0A, 0x03, 0x0A, 0x01], [0x07]] = .ok m ∧
      run (makeCall .sequential Except.ok) (m, { progress := some 5 })
        [{ bytes := [0x0A, 0x01] }, { bytes := [0x07, 0x0A, 0x02] }] = .ok s ∧
      ∃ entries plains, (∀ es, Completed (windowsOf [{ bytes := [0x0A, 0x01] },
          { bytes := [0x07, 0x0A, 0x02] }]) es ↔ es = entries) ∧
        Accounted .sequential Except.ok m { progress := some 5 } entries plains s ∧
        ((∀ c ∈ ([{ bytes := [0x0A, 0x01] }, { bytes := [0x07, 0x0A, 0x02] }] : List PieceCall),
          c.slot = none) → CountedUp (some 5) s.2.progress entries.length) := by
  have hgrammar : SetupGrammar ([[0x0A, 0x03, 0x0A, 0x01], [0x07]] : List Bytes).flatten [[0x07]] :=
    setupOutcome_eq_ok_iff.mp rfl
  have hread : run (readByte takeEntry) (.tag, []) (windowsOf [{ bytes := [0x0A, 0x01] },
      { bytes := [0x07, 0x0A, 0x02] }]) = .ok (.element 2 [], [[0x07]]) := rfl
  have hplains : ([[0x07]] : List Bytes).mapM (Except.ok : ElementOp) = .ok [[0x07]] := rfl
  obtain ⟨m, s, hsealed, -, hcalls⟩ := exists_run_makeCall .sequential Except.ok true
    { progress := some 5 } hgrammar hread hplains
  exact ⟨m, s, hsealed, hcalls, response_accounting hsealed hcalls⟩

end Accounted

section OutOfOrder

/-- Batches that are full but for the last are one batch, if there is not enough for two. -/
private theorem single_batch {batches : List (List Bytes)} (hnonempty : batches.flatten ≠ [])
    (hfull : ∀ b ∈ batches.dropLast, b.length = kBatchElements)
    (hsmall : batches.flatten.length < kBatchElements) : batches = [batches.flatten] := by
  rcases List.eq_nil_or_concat batches with rfl | ⟨init, last, rfl⟩
  · exact absurd rfl hnonempty
  · rw [List.concat_eq_append] at hfull hsmall ⊢
    rw [List.dropLast_concat] at hfull
    cases init with
    | nil => simp
    | cons b init =>
      have hb := hfull b List.mem_cons_self
      simp only [List.cons_append, List.flatten_cons, List.length_append] at hsmall
      omega

/-- With two threads the second half of a batch may go first. -/
theorem exists_second_shard_first {response : List Bytes} (hlength : response.length = 1024)
    (hfits : ∀ element ∈ response, element.length ≤ kMaxElementBytes) :
    ∃ (threads : ParallelEc.Threads) (m : PsiMatch) (s : PsiMatch × Surroundings),
      setupPhase { revealIntersection := true } [[0x0A, 0x00]] = .ok m ∧
        run (makeCall (.threaded threads) Except.ok) (m, {}) [{ bytes := serializeEntries response }] = .ok s ∧
        Completed (serializeEntries response) response ∧
        s.2.decryptCalls.head? = some (response.getD 512 []) := by
  have htake : run (fun entries element => takeEntry element entries) [] response = .ok response :=
    run_takeEntry_iff.mpr ⟨rfl, by rw [hlength]; decide⟩
  have hread := run_readByte_iff.mpr ⟨response, entries_serializeEntries hfits, htake⟩
  have hgrammar : SetupGrammar ([[0x0A, 0x00]] : List Bytes).flatten [] := setupOutcome_eq_ok_iff.mp rfl
  have hcount : ParallelEc.chooseThreadCount 2 response.length = 2 := by
    rw [hlength]
    decide
  obtain ⟨p, hp, hhead⟩ := ParallelEc.exists_pass_ahead Except.ok hcount.ge
    (by rw [hcount, hlength]; decide)
  obtain ⟨threads, hpass⟩ := ParallelEc.exists_threads hp
  have hwindow : run (readByte takeEntry) (.tag, []) (windowsOf [{ bytes := serializeEntries response }]) =
      .ok (.tag, response) := by
    rw [windowsOf, List.map_singleton, List.flatten_singleton]
    exact hread
  have hplains : response.mapM (Except.ok : ElementOp) = .ok (response.map id) :=
    Traversal.mapM_of_total fun _ _ => rfl
  obtain ⟨m, s, hm, hsealed, hcalls⟩ := exists_run_makeCall (.threaded threads) Except.ok true {}
    hgrammar hwindow hplains
  refine ⟨threads, m, s, hm, hcalls, completed_of_run hread, ?_⟩
  rw [run_singleton, makeCall] at hcalls
  have hbetween : Between Except.ok true [] (m, {}) (.tag, []) := hsealed.between {}
  obtain ⟨batches, hentries, -, hfull, hw⟩ := matchResponsePiece_flushes hbetween hcalls hread
  dsimp only at hentries
  rw [List.nil_append] at hentries
  have hone : batches = [response] := by
    rw [hentries]
    refine single_batch ?_ hfull ?_
    · rw [← hentries, ← List.length_pos_iff, hlength]
      decide
    · rw [← hentries, hlength]
      decide
  have hlog : s.2.decryptCalls = p.calls := by
    rw [hw, hone]
    exact congrArg Pass.calls (hpass 0)
  rw [hlog, hhead, hcount, hlength]
  rfl

/-- A response whose two halves differ is not decrypted in order. -/
theorem decrypted_out_of_order :
    ∃ (threads : ParallelEc.Threads) (response : List Bytes) (m : PsiMatch) (s : PsiMatch × Surroundings),
      response = List.replicate 512 [0] ++ List.replicate 512 [1] ∧
        setupPhase { revealIntersection := true } [[0x0A, 0x00]] = .ok m ∧
        run (makeCall (.threaded threads) Except.ok) (m, {}) [{ bytes := serializeEntries response }] = .ok s ∧
        Completed (serializeEntries response) response ∧ s.2.decryptCalls ≠ response := by
  -- as a variable, so that the lemma's statement is not unfolded at it
  obtain ⟨response, hresponse⟩ :
    ∃ response : List Bytes, response = List.replicate 512 [0] ++ List.replicate 512 [1] := ⟨_, rfl⟩
  have hlength : response.length = 1024 := by
    rw [hresponse, List.length_append, List.length_replicate, List.length_replicate]
  have hfits : ∀ element ∈ response, element.length ≤ kMaxElementBytes := by
    intro element helement
    rw [hresponse] at helement
    rcases List.mem_append.mp helement with helement | helement
    · rw [List.eq_of_mem_replicate helement]
      decide
    · rw [List.eq_of_mem_replicate helement]
      decide
  obtain ⟨threads, m, s, hm, hcalls, hcompleted, hhead⟩ := exists_second_shard_first hlength hfits
  refine ⟨threads, response, m, s, hresponse, hm, hcalls, hcompleted, fun hsame => ?_⟩
  have hfirst : response.head? = some [0] := by
    rw [hresponse]
    rfl
  have hmiddle : response.getD 512 [] = [1] := by
    rw [hresponse, List.getD_append_right _ _ _ _ (by rw [List.length_replicate]), List.length_replicate,
      Nat.sub_self]
    rfl
  rw [hsame, hfirst, hmiddle] at hhead
  exact absurd hhead (by decide)

end OutOfOrder

end PsiMatch
end PrivateSetIntersection
