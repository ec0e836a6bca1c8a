import PrivateSetIntersection.Library.Traversal
import PrivateSetIntersection.Library.WordBitmap
import PrivateSetIntersection.Protocol.Schedules
import PrivateSetIntersection.Streaming.Calls
import PrivateSetIntersection.Streaming.SetupLookup

/-! The response phase: where the batches end does not matter, and the result is a
function of the setup's elements and of the response's, decrypted. -/
namespace PrivateSetIntersection
open Library Automaton

namespace PsiMatch

section Record

/-- The index pairs of equal elements, in the order of the response. -/
def matchedPairs (setup plains : List Bytes) : List (Nat × Nat) :=
  plains.zipIdx.filterMap (fun p => if p.1 ∈ setup then some (p.2, setup.idxOf p.1) else none)

theorem matchedPairs_concat (setup plains : List Bytes) (plain : Bytes) :
    matchedPairs setup (plains ++ [plain]) = matchedPairs setup plains ++
      if plain ∈ setup then [(plains.length, setup.idxOf plain)] else [] := by
  rw [matchedPairs, List.zipIdx_append, List.filterMap_append, matchedPairs]
  split <;> rename_i hmem <;> simp [hmem]

/-- What a match has recorded of the elements `plains`. -/
structure Recorded (reveal : Bool) (setup plains : List Bytes) (m : PsiMatch) : Prop where
  words : m.matchedSetup.length = (setup.length + 63) / 64
  bits : ∀ k, WordBitmap.bitAt 64 m.matchedSetup k =
    decide (∃ hk : k < setup.length, setup[k] ∈ plains)
  responseIndices : m.responseIndices =
    if reveal then (matchedPairs setup plains).map Prod.fst else []
  setupIndices : m.setupIndices =
    if reveal then (matchedPairs setup plains).map Prod.snd else []

private theorem shiftRight_word (i : Nat) : i >>> 6 = i / 64 := Nat.shiftRight_eq_div_pow i 6

private theorem and_word (i : Nat) : i &&& 63 = i % 64 := Nat.and_two_pow_sub_one_eq_mod i 6

private theorem Recorded.missed {reveal : Bool} {m : PsiMatch} {setup plains : List Bytes} {plain : Bytes}
    (h : Recorded reveal setup plains m) (hmem : plain ∉ setup) :
    Recorded reveal setup (plains ++ [plain]) m where
  words := h.words
  bits k := by
    rw [h.bits, decide_eq_decide]
    refine exists_congr fun hk => ?_
    have hne : setup[k] ≠ plain := fun heq => hmem (heq ▸ List.getElem_mem hk)
    simp [hne]
  responseIndices := by rw [h.responseIndices, matchedPairs_concat, if_neg hmem, List.append_nil]
  setupIndices := by rw [h.setupIndices, matchedPairs_concat, if_neg hmem, List.append_nil]

private theorem Recorded.found {reveal : Bool} {m : PsiMatch} {setup plains : List Bytes} {plain : Bytes}
    (h : Recorded reveal setup plains m) (hnodup : setup.Nodup) (hmem : plain ∈ setup) :
    Recorded reveal setup (plains ++ [plain]) { m with
      matchedSetup := WordBitmap.orBit 64 m.matchedSetup (setup.idxOf plain)
      responseIndices := m.responseIndices ++ if reveal then [plains.length] else []
      setupIndices := m.setupIndices ++ if reveal then [setup.idxOf plain] else [] } where
  words := by simpa using h.words
  bits k := by
    have hidx := List.idxOf_lt_length_of_mem hmem
    have hword : setup.idxOf plain / 64 < m.matchedSetup.length := by
      rw [h.words]
      omega
    dsimp only
    rw [WordBitmap.bitAt_orBit _ hword, h.bits, ← Bool.decide_or, decide_eq_decide]
    constructor
    · rintro (⟨hk, hin⟩ | rfl)
      · exact ⟨hk, List.mem_append_left _ hin⟩
      · exact ⟨hidx, by simp [List.getElem_idxOf]⟩
    · rintro ⟨hk, hin⟩
      rcases List.mem_append.mp hin with hin | hin
      · exact Or.inl ⟨hk, hin⟩
      · rw [← List.mem_singleton.mp hin]
        exact Or.inr (List.get_idxOf hnodup ⟨k, hk⟩)
  responseIndices := by
    rw [h.responseIndices, matchedPairs_concat, if_pos hmem]
    cases reveal <;> simp
  setupIndices := by
    rw [h.setupIndices, matchedPairs_concat, if_pos hmem]
    cases reveal <;> simp

/-- One turn of the loop over a decrypted batch, on an element of the setup. -/
private theorem recordMatches_found {m : PsiMatch} {setup : List Bytes} (hstores : Stores m setup)
    (hascending : setup.Pairwise (· < ·)) (hsetup : setup.length ≤ 2 ^ 32) {k n : Nat} {plain : Bytes}
    (hmem : plain ∈ setup) (hk : m.decryptedCount + k = n) (hn : n < 2 ^ 32) (batch : List Bytes) :
    m.recordMatches k (plain :: batch) = recordMatches { m with
      matchedSetup := WordBitmap.orBit 64 m.matchedSetup (setup.idxOf plain)
      responseIndices := m.responseIndices ++ if m.revealIntersection then [n] else []
      setupIndices := m.setupIndices ++ if m.revealIntersection then [setup.idxOf plain] else [] }
      (k + 1) batch := by
  have hidx : setup.idxOf plain < 2 ^ 32 := (List.idxOf_lt_length_of_mem hmem).trans_le hsetup
  rw [recordMatches, findInSetup_eq hstores hascending, if_pos hmem, if_neg (by omega)]
  dsimp only
  rw [Int.toNat_natCast, shiftRight_word, and_word, hk, Nat.mod_eq_of_lt hn, Nat.mod_eq_of_lt hidx]
  cases m.revealIntersection with
  | true => rfl
  | false =>
    simp only [Bool.false_eq_true, if_false, List.append_nil]
    rfl

/-- The loop over a decrypted batch records it, and touches nothing else. -/
theorem recordMatches_records {m : PsiMatch} {setup plains : List Bytes} (hstores : Stores m setup)
    (hascending : setup.Pairwise (· < ·)) (hsetup : setup.length ≤ 2 ^ 32)
    (hrecorded : Recorded m.revealIntersection setup plains m) (k : Nat) (batch : List Bytes)
    (hk : m.decryptedCount + k = plains.length) (hbound : plains.length + batch.length ≤ 2 ^ 32) :
    ∃ words first second, m.recordMatches k batch =
        { m with matchedSetup := words, responseIndices := first, setupIndices := second } ∧
      Recorded m.revealIntersection setup (plains ++ batch)
        { m with matchedSetup := words, responseIndices := first, setupIndices := second } := by
  induction batch generalizing m plains k with
  | nil =>
    rw [List.append_nil]
    exact ⟨_, _, _, rfl, hrecorded⟩
  | cons plain batch ih =>
    rw [List.length_cons] at hbound
    have hassoc : plains ++ plain :: batch = plains ++ [plain] ++ batch := by simp
    have hconcat : (plains ++ [plain]).length = plains.length + 1 := by simp
    rw [hassoc]
    by_cases hmem : plain ∈ setup
    · have hfound := hrecorded.found (hascending.imp ne_of_lt) hmem
      rw [recordMatches_found hstores hascending hsetup hmem hk (by omega)]
      refine ih ?_ hfound (k + 1) (by rw [hconcat, ← hk]; rfl) (by omega)
      exact { hstores with }
    · rw [recordMatches, findInSetup_eq hstores hascending, if_neg hmem, if_pos (by decide)]
      exact ih hstores (hrecorded.missed hmem) (k + 1) (by omega) (by omega)

end Record

section Match
variable (build : Build) (decrypt : ElementOp) (reveal : Bool) (setup : List Bytes)

/-- A sealed object in the middle of a response of which `entries` have been handed over:
the first ones are decrypted and recorded, the last ones wait in the batch. -/
structure Matching (m : PsiMatch) (entries : List Bytes) : Prop where
  failure : m.failure = .ok
  phase : m.phase = .matching
  revealIntersection : m.revealIntersection = reveal
  stores : Stores m setup
  bounded : entries.length ≤ kMaxElements
  progress : ∃ done plains, entries = done ++ m.batch ∧ done.mapM decrypt = .ok plains ∧
    m.decryptedCount = done.length ∧ Recorded reveal setup plains m

/-- What the response's entries become, or the refusal of one too many. -/
def takeEntry (element : Bytes) (entries : List Bytes) : Except Error (List Bytes) :=
  if entries.length ≥ kMaxElements then .error tooManyResponseElements
  else .ok (entries ++ [element])

/-- All entries are taken, unless there are too many of them. -/
theorem run_takeEntry_iff {elements entries : List Bytes} :
    run (fun entries element => takeEntry element entries) [] elements = .ok entries ↔
      entries = elements ∧ elements.length ≤ kMaxElements := by
  induction elements using List.reverseRecOn generalizing entries with
  | nil => exact ⟨fun h => by cases h; exact ⟨rfl, Nat.zero_le _⟩, fun h => by rw [h.1]; rfl⟩
  | append_singleton elements element ih =>
    rw [run_concat_eq_ok, List.length_append, List.length_singleton]
    constructor
    · rintro ⟨before, hbefore, htake⟩
      obtain ⟨rfl, -⟩ := ih.mp hbefore
      rw [takeEntry] at htake
      split at htake <;> cases htake
      exact ⟨rfl, by omega⟩
    · rintro ⟨rfl, hcount⟩
      exact ⟨elements, ih.mpr ⟨rfl, by omega⟩, if_neg (by omega)⟩

/-- The entries taken of any bytes are those the bytes complete. -/
theorem completed_of_run {bytes : Bytes} {ρ : Reading} {es : List Bytes}
    (h : run (readByte takeEntry) (.tag, []) bytes = .ok (ρ, es)) : Completed bytes es := by
  obtain ⟨done, tail, elements, hbytes, hdone, htail, hrun⟩ := run_readByte_standing h
  rw [(run_takeEntry_iff.mp hrun).1]
  exact ⟨done, tail, ρ, hbytes, hdone, htail⟩

def Undecryptable (entries : List Bytes) : Prop := ∃ e, entries.mapM decrypt = .error e

variable {decrypt reveal setup}

theorem Undecryptable.append {entries : List Bytes} (h : Undecryptable decrypt entries)
    (more : List Bytes) : Undecryptable decrypt (entries ++ more) := by
  obtain ⟨e, he⟩ := h
  exact ⟨e, Traversal.mapM_append_error he more⟩

/-- Decrypting the batch completes the record, unless an entry does not decrypt. -/
theorem matchBatch_matches (hascending : setup.Pairwise (· < ·)) (hsetup : setup.length ≤ 2 ^ 32)
    {m : PsiMatch} {entries : List Bytes} (h : Matching decrypt reveal setup m entries)
    (w : Surroundings) :
    match matchBatch build decrypt (m, w) with
    | (.ok, m', _) => Matching decrypt reveal setup m' entries ∧ m'.batch = [] ∧
        m'.responseReader = m.responseReader
    | (.error _, _) => Undecryptable decrypt entries := by
  obtain ⟨done, plains, hentries, hdone, hcount, hrecorded⟩ := h.progress
  by_cases hbatch : m.batch = []
  · simp only [matchBatch, if_pos hbatch]
    exact ⟨h, hbatch, trivial⟩
  · simp only [matchBatch, if_neg hbatch, Build.transformElements_result]
    have happend := Traversal.mapM_append_ok hdone m.batch
    cases hplain : m.batch.mapM decrypt with
    | error e =>
      rw [hplain, ← hentries] at happend
      exact ⟨e, happend⟩
    | ok decrypted =>
      rw [hplain, ← hentries] at happend
      have hlength := Traversal.length_of_mapM_ok hplain
      have hplains := Traversal.length_of_mapM_ok hdone
      have hbounded := h.bounded
      rw [hentries, List.length_append, kMaxElements] at hbounded
      obtain ⟨words, first, second, hrecord, hall⟩ := recordMatches_records h.stores hascending hsetup
        (by rw [h.revealIntersection]; exact hrecorded) 0 decrypted (by omega) (by omega)
      dsimp only
      rw [hrecord]
      refine ⟨⟨h.failure, h.phase, h.revealIntersection, { h.stores with }, h.bounded, ?_⟩, rfl, rfl⟩
      refine ⟨entries, plains ++ decrypted, (List.append_nil _).symm, happend, ?_, ?_⟩
      · rw [hcount, hentries, List.length_append, hlength]
      · rw [h.revealIntersection] at hall
        exact { hall with }

/-- The relation between the object with its reader and the plain reading. -/
private def InStep (decrypt : ElementOp) (reveal : Bool) (setup : List Bytes)
    (reader : Reading × PsiMatch × Surroundings) (state : Reading × List Bytes) : Prop :=
  reader.1 = state.1 ∧ Matching decrypt reveal setup reader.2.1 state.2

private theorem onResponseEntry_matches (hascending : setup.Pairwise (· < ·))
    (hsetup : setup.length ≤ 2 ^ 32) {m : PsiMatch} {entries : List Bytes}
    (h : Matching decrypt reveal setup m entries) (w : Surroundings) (element : Bytes) :
    Refines (fun s entries => Matching decrypt reveal setup s.1 entries) (Undecryptable decrypt)
      (accepted (onResponseEntry build decrypt element (m, w))) (takeEntry element entries) := by
  obtain ⟨done, plains, hentries, hdone, hcount, hrecorded⟩ := h.progress
  have htotal : m.decryptedCount + m.batch.length = entries.length := by
    rw [hcount, hentries, List.length_append]
  by_cases hfull : entries.length ≥ kMaxElements
  · simp only [onResponseEntry, htotal, if_pos hfull, takeEntry]
    rintro _ ⟨⟩
  · have hwaiting : Matching decrypt reveal setup { m with batch := m.batch ++ [element] }
        (entries ++ [element]) := by
      refine ⟨h.failure, h.phase, h.revealIntersection, { h.stores with }, ?_, done, plains, ?_, hdone,
        hcount, { hrecorded with }⟩
      · rw [List.length_append, List.length_singleton]
        omega
      · rw [hentries, List.append_assoc]
    simp only [onResponseEntry, htotal, if_neg hfull, takeEntry]
    by_cases hbatch : (m.batch ++ [element]).length ≥ kBatchElements
    · rw [if_pos hbatch]
      have hmatch := matchBatch_matches build hascending hsetup hwaiting w
      generalize matchBatch build decrypt _ = answer at hmatch ⊢
      obtain ⟨_ | e, m', w'⟩ := answer
      · exact ⟨_, rfl, hmatch.1⟩
      · rintro _ ⟨⟩
        exact hmatch
    · rw [if_neg hbatch]
      exact ⟨_, rfl, hwaiting⟩

private theorem readByte_matches (hascending : setup.Pairwise (· < ·)) (hsetup : setup.length ≤ 2 ^ 32)
    (reader : Reading × PsiMatch × Surroundings) (state : Reading × List Bytes) (byte : UInt8)
    (h : InStep decrypt reveal setup reader state) :
    Refines (InStep decrypt reveal setup) (fun state => Undecryptable decrypt state.2)
      (readEntryByte (onResponseEntry build decrypt) reader byte) (readByte takeEntry state byte) := by
  obtain ⟨ρ, m, w⟩ := reader
  obtain ⟨ρ', entries⟩ := state
  obtain ⟨hρ, hmatching⟩ := h
  dsimp only at hρ hmatching
  subst hρ
  cases hnext : ρ.next byte with
  | error e =>
    rw [readByte_error hnext, readEntryByte, readByte_error hnext]
    rintro _ ⟨⟩
  | ok answer =>
    obtain ⟨ρ', out⟩ := answer
    cases out with
    | none =>
      rw [readByte_none hnext, readEntryByte, readByte_none hnext]
      exact ⟨_, rfl, rfl, hmatching⟩
    | some entry =>
      rw [readByte_some hnext, readEntryByte, readByte_some hnext]
      have hentry := onResponseEntry_matches build hascending hsetup hmatching w entry
      cases hon : accepted (onResponseEntry build decrypt entry (m, w)) with
      | ok s =>
        rw [hon] at hentry
        obtain ⟨entries', htake, hmatching'⟩ := hentry
        rw [htake]
        exact ⟨_, rfl, rfl, hmatching'⟩
      | error e =>
        rw [hon] at hentry
        intro state hstate
        cases htake : takeEntry entry entries with
        | error e' =>
          rw [htake] at hstate
          cases hstate
        | ok entries' =>
          rw [htake] at hstate
          cases hstate
          exact hentry entries' htake

theorem undecryptable_lasts (state : Reading × List Bytes) (byte : UInt8)
    (next : Reading × List Bytes) (h : Undecryptable decrypt state.2)
    (hnext : readByte takeEntry state byte = .ok next) : Undecryptable decrypt next.2 := by
  obtain ⟨ρ, entries⟩ := state
  cases hread : ρ.next byte with
  | error e =>
    rw [readByte_error hread] at hnext
    cases hnext
  | ok answer =>
    obtain ⟨ρ', out⟩ := answer
    cases out with
    | none =>
      rw [readByte_none hread] at hnext
      cases hnext
      exact h
    | some entry =>
      rw [readByte_some hread, takeEntry] at hnext
      split at hnext
      · cases hnext
      · rename_i htake
        cases hnext
        split at htake <;> cases htake
        exact h.append [entry]

private theorem Matching.withReader {m : PsiMatch} {entries : List Bytes}
    (h : Matching decrypt reveal setup m entries) (reader : EntryReader) :
    Matching decrypt reveal setup { m with responseReader := reader } entries := by
  obtain ⟨done, plains, hentries, hdone, hcount, hrecorded⟩ := h.progress
  exact ⟨h.failure, h.phase, h.revealIntersection, { h.stores with }, h.bounded, done, plains, hentries,
    hdone, hcount, { hrecorded with }⟩

/-- The object between two calls: its reader stands where the plain reading does, and
no entry waits. -/
def Between (decrypt : ElementOp) (reveal : Bool) (setup : List Bytes) (s : PsiMatch × Surroundings)
    (state : Reading × List Bytes) : Prop :=
  s.1.responseReader.reading = state.1 ∧ Matching decrypt reveal setup s.1 state.2 ∧ s.1.batch = []

/-- `MatchResponsePiece` on a window is the plain reading of its bytes, or refuses a
response with an entry that does not decrypt. -/
theorem matchResponsePiece_matches (hascending : setup.Pairwise (· < ·)) (hsetup : setup.length ≤ 2 ^ 32)
    (s : PsiMatch × Surroundings) (state : Reading × List Bytes) (piece : Bytes)
    (h : Between decrypt reveal setup s state) :
    Refines (Between decrypt reveal setup) (fun state => Undecryptable decrypt state.2)
      (accepted (matchResponsePiece build decrypt s piece)) (run (readByte takeEntry) state piece) := by
  obtain ⟨m, w⟩ := s
  obtain ⟨ρ, entries⟩ := state
  obtain ⟨hreading, hmatching, -⟩ := h
  dsimp only at hreading hmatching
  subst hreading
  have hrefines : Refines (InStep decrypt reveal setup) (fun state => Undecryptable decrypt state.2)
      (run (readEntryByte (onResponseEntry build decrypt)) (m.responseReader.reading, m, w) piece)
      (run (readByte takeEntry) (m.responseReader.reading, entries) piece) :=
    Refines.run (readByte_matches build hascending hsetup) undecryptable_lasts ⟨rfl, hmatching⟩ piece
  have hfed := EntryReader.feed_reads (onResponseEntry build decrypt) piece m.responseReader (m, w)
  simp only [matchResponsePiece, hmatching.failure, hmatching.phase, reduceCtorEq, if_false]
  generalize EntryReader.feed (onResponseEntry build decrypt) m.responseReader (m, w) piece = answer at hfed ⊢
  generalize run (readEntryByte (onResponseEntry build decrypt)) (m.responseReader.reading, m, w) piece
    = read at hfed hrefines
  cases hfed with
  | error e reader s => exact hrefines
  | ok reader s =>
    obtain ⟨m', w'⟩ := s
    obtain ⟨⟨ρ', entries'⟩, hplain, hρ, hmatching'⟩ := hrefines
    dsimp only at hρ hmatching' ⊢
    subst hρ
    have hbatch := matchBatch_matches build hascending hsetup (hmatching'.withReader reader) w'
    generalize matchBatch build decrypt _ = answer at hbatch ⊢
    obtain ⟨_ | e, m'', w''⟩ := answer
    · obtain ⟨hdone, hempty, hreader⟩ := hbatch
      exact ⟨_, hplain, by rw [hreader], hdone, hempty⟩
    · intro state hstate
      rw [hplain] at hstate
      cases hstate
      exact hbatch

end Match

section Outcome
variable (build : Build) (decrypt : ElementOp)

def matchPhase (s : PsiMatch × Surroundings) (pieces : List Bytes) : Except Error PsiMatchResult := do
  let s ← run (fun s piece => accepted (matchResponsePiece build decrypt s piece)) s pieces
  s.1.finish.1

/-- The elements of a response, decrypted: what they are if the bytes are whole entries,
not too many, and all of them decrypt. -/
def responsePlains (bytes : Bytes) : Option (List Bytes) :=
  match run (readByte takeEntry) (.tag, []) bytes with
  | .ok (.tag, entries) => (entries.mapM decrypt).toOption
  | _ => none

def matchResult (reveal : Bool) (setup plains : List Bytes) : PsiMatchResult where
  decryptedCount := plains.length
  intersectionSize := setup.countP (fun element => element ∈ plains)
  responseIndices := if reveal then (matchedPairs setup plains).map Prod.fst else []
  setupIndices := if reveal then (matchedPairs setup plains).map Prod.snd else []

variable {decrypt} {reveal : Bool} {setup : List Bytes}

theorem Sealed.between {m : PsiMatch} (h : Sealed reveal m setup) (w : Surroundings) :
    Between decrypt reveal setup (m, w) (.tag, []) := by
  refine ⟨h.untouched.responseReader, ⟨h.failure, h.phase, h.untouched.revealIntersection, h.stores,
    Nat.zero_le _, [], [], ?_, rfl, h.untouched.decryptedCount, ?_⟩, h.untouched.batch⟩
  · rw [h.untouched.batch]
    rfl
  · refine ⟨by rw [h.matchedSetup, List.length_replicate], fun k => ?_, ?_, ?_⟩
    · rw [h.matchedSetup, WordBitmap.bitAt_replicate_zero]
      simp
    · rw [h.untouched.responseIndices]
      cases reveal <;> rfl
    · rw [h.untouched.setupIndices]
      cases reveal <;> rfl

private theorem Recorded.size {m : PsiMatch} {plains : List Bytes} (h : Recorded reveal setup plains m) :
    (m.matchedSetup.map bitCount).sum = setup.countP (fun element => element ∈ plains) := by
  have hcount := WordBitmap.sum_population (show 0 < 64 by decide) m.matchedSetup
  have hbelow : (List.range (64 * m.matchedSetup.length)).countP (WordBitmap.bitAt 64 m.matchedSetup) =
      (List.range setup.length).countP (WordBitmap.bitAt 64 m.matchedSetup) := by
    refine WordBitmap.countP_range_le (by rw [h.words]; omega) fun k hk => ?_
    rw [h.bits] at hk
    exact (of_decide_eq_true hk).1
  have hsetup : (List.range setup.length).map (fun k => setup.getD k []) = setup := by
    apply List.ext_getElem
    · simp
    · intro k _ hk
      rw [List.getElem_map, List.getElem_range, List.getD_eq_getElem _ _ hk]
  have helements : (List.range setup.length).countP (WordBitmap.bitAt 64 m.matchedSetup) =
      setup.countP (fun element => element ∈ plains) := by
    conv_rhs => rw [← hsetup, List.countP_map]
    refine List.countP_congr fun k hk => ?_
    rw [List.mem_range] at hk
    rw [h.bits]
    simp [hk]
  exact hcount.trans (hbelow.trans helements)

/-- `Finish` gives the result of all that was read, if it ended between entries. -/
theorem finish_between {s : PsiMatch × Surroundings} {ρ : Reading} {entries : List Bytes}
    (h : Between decrypt reveal setup s (ρ, entries)) :
    if ρ = .tag then ∃ plains, entries.mapM decrypt = .ok plains ∧
      s.1.finish.1 = .ok (matchResult reveal setup plains)
    else s.1.finish.1 = .error insideAnElement := by
  obtain ⟨hreading, hmatching, hbatch⟩ := h
  obtain ⟨done, plains, hentries, hdone, hcount, hrecorded⟩ := hmatching.progress
  dsimp only at hreading hentries
  rw [hbatch, List.append_nil] at hentries
  simp only [finish, hmatching.failure, hmatching.phase, reduceCtorEq, if_false]
  split <;> rename_i htag
  · refine ⟨plains, hentries ▸ hdone, ?_⟩
    rw [if_neg (not_not.mpr (EntryReader.atEntryBoundary_iff _ |>.mpr (hreading.trans htag)))]
    rw [hrecorded.size, hrecorded.responseIndices, hrecorded.setupIndices, hcount,
      ← Traversal.length_of_mapM_ok hdone]
    rfl
  · rw [if_pos (fun hat => htag (hreading.symm.trans (EntryReader.atEntryBoundary_iff _ |>.mp hat)))]

/-- The response phase is a function of the bytes, however they are cut and batched. -/
theorem matchPhase_outcome {m : PsiMatch} (hsealed : Sealed reveal m setup)
    (hascending : setup.Pairwise (· < ·)) (hsetup : setup.length ≤ 2 ^ 32) (w : Surroundings)
    (pieces : List Bytes) :
    (matchPhase build decrypt (m, w) pieces).toOption =
      (responsePlains decrypt pieces.flatten).map (matchResult reveal setup) := by
  have hrun : Refines (Between decrypt reveal setup) (fun state => Undecryptable decrypt state.2)
      (run (fun s piece => accepted (matchResponsePiece build decrypt s piece)) (m, w) pieces)
      (run (readByte takeEntry) (.tag, []) pieces.flatten) := by
    rw [← run_windows]
    refine Refines.run (matchResponsePiece_matches build hascending hsetup) ?_ (hsealed.between w) pieces
    intro state piece next hdoomed hnext
    exact run_preserves _ undecryptable_lasts hdoomed hnext
  rw [matchPhase, responsePlains]
  cases hmatched : run (fun s piece => accepted (matchResponsePiece build decrypt s piece)) (m, w) pieces with
  | error e =>
    rw [hmatched] at hrun
    split <;> rename_i entries hread
    · obtain ⟨e, he⟩ := hrun _ hread
      rw [he]
      rfl
    · rfl
  | ok s =>
    rw [hmatched] at hrun
    obtain ⟨⟨ρ, entries⟩, hread, hbetween⟩ := hrun
    have hfinish := finish_between hbetween
    rw [hread]
    dsimp only [bind, Except.bind]
    cases ρ with
    | tag =>
      rw [if_pos rfl] at hfinish
      obtain ⟨plains, hplains, hresult⟩ := hfinish
      rw [hresult]
      dsimp only
      rw [hplains]
      rfl
    | varint value bytesRead =>
      rw [if_neg nofun] at hfinish
      rw [hfinish]
      rfl
    | element size got =>
      rw [if_neg nofun] at hfinish
      rw [hfinish]
      rfl

end Outcome

section Run
variable (build : Build) (decrypt : ElementOp)

/-- How a whole run ends: at the first status that is not OK, in either phase, or with
the result. -/
inductive Outcome where
  | setupRefused (e : Error)
  | matchRefused (e : Error)
  | finished (result : PsiMatchResult)

/-- A fresh object fed the setup's windows, sealed, fed the response's, and finished. -/
def runMatch (reveal : Bool) (w : Surroundings) (windows pieces : List Bytes) : Outcome :=
  match setupPhase { revealIntersection := reveal } windows with
  | .error e => .setupRefused e
  | .ok m =>
    match matchPhase build decrypt (m, w) pieces with
    | .error e => .matchRefused e
    | .ok result => .finished result

theorem runMatch_outcome (reveal : Bool) (w : Surroundings) (windows pieces : List Bytes) :
    match setupOutcome windows.flatten with
    | .error e => runMatch build decrypt reveal w windows pieces = .setupRefused e
    | .ok setup =>
      match responsePlains decrypt pieces.flatten with
      | some plains => runMatch build decrypt reveal w windows pieces =
          .finished (matchResult reveal setup plains)
      | none => ∃ e, runMatch build decrypt reveal w windows pieces = .matchRefused e := by
  have hphase := setupPhase_outcome reveal windows
  rw [runMatch]
  generalize houtcome : setupOutcome windows.flatten = outcome at hphase
  generalize setupPhase _ windows = phase at hphase
  cases hphase with
  | error e => rfl
  | @ok m setup hsealed =>
    have hgrammar := setupOutcome_eq_ok_iff.mp houtcome
    have hmatch : (matchPhase build decrypt (m, w) pieces).toOption = _ :=
      matchPhase_outcome build hsealed hgrammar.ascending hgrammar.length_le w pieces
    dsimp only
    cases hplains : responsePlains decrypt pieces.flatten with
    | some plains =>
      rw [hplains] at hmatch
      cases hresult : matchPhase build decrypt (m, w) pieces with
      | ok result =>
        rw [hresult] at hmatch
        exact congrArg Outcome.finished (Option.some.inj hmatch)
      | error e =>
        rw [hresult] at hmatch
        cases hmatch
    | none =>
      rw [hplains] at hmatch
      cases hresult : matchPhase build decrypt (m, w) pieces with
      | ok result =>
        rw [hresult] at hmatch
        cases hmatch
      | error e => exact ⟨e, rfl⟩

/-- Neither the cuts, nor the build, nor the progress slot make a difference: two runs on
the same bytes fail in the setup with the same status, or both fail in the response, or
both succeed with the same result. -/
theorem outcome_independent_of_cuts (build' : Build) (reveal : Bool) (w w' : Surroundings)
    {windows windows' pieces pieces' : List Bytes}
    (hsetup : windows.flatten = windows'.flatten) (hresponse : pieces.flatten = pieces'.flatten) :
    runMatch build decrypt reveal w windows pieces =
        runMatch build' decrypt reveal w' windows' pieces' ∨
      ∃ e e', runMatch build decrypt reveal w windows pieces = .matchRefused e ∧
        runMatch build' decrypt reveal w' windows' pieces' = .matchRefused e' := by
  have hrun := runMatch_outcome build decrypt reveal w windows pieces
  have hrun' := runMatch_outcome build' decrypt reveal w' windows' pieces'
  rw [← hsetup, ← hresponse] at hrun'
  cases houtcome : setupOutcome windows.flatten with
  | error e =>
    rw [houtcome] at hrun hrun'
    exact Or.inl (hrun.trans hrun'.symm)
  | ok setup =>
    rw [houtcome] at hrun hrun'
    dsimp only at hrun hrun'
    cases hplains : responsePlains decrypt pieces.flatten with
    | some plains =>
      rw [hplains] at hrun hrun'
      exact Or.inl (hrun.trans hrun'.symm)
    | none =>
      rw [hplains] at hrun hrun'
      obtain ⟨e, he⟩ := hrun
      obtain ⟨e', he'⟩ := hrun'
      exact Or.inr ⟨e, e', he, he'⟩

/-- Two elements on each side, whole, and cut inside their bodies. -/
theorem outcome_independent_of_cuts_split :
    runMatch .sequential .ok true {} [[0x0A, 0x07, 0x0A, 0x02, 0x01], [0x02, 0x0A, 0x01], [], [0x03]]
        [[0x0A, 0x02, 0x01], [0x02, 0x0A], [0x01, 0x09]] =
      .finished (matchResult true [[1, 2], [3]] [[1, 2], [9]]) := by
  have hwhole : runMatch .sequential .ok true {} [[0x0A, 0x07, 0x0A, 0x02, 0x01, 0x02, 0x0A, 0x01, 0x03]]
      [[0x0A, 0x02, 0x01, 0x02, 0x0A, 0x01, 0x09]] = .finished (matchResult true [[1, 2], [3]] [[1, 2], [9]]) := by
    have hrun := runMatch_outcome .sequential .ok true {}
      [[0x0A, 0x07, 0x0A, 0x02, 0x01, 0x02, 0x0A, 0x01, 0x03]] [[0x0A, 0x02, 0x01, 0x02, 0x0A, 0x01, 0x09]]
    rw [show setupOutcome _ = .ok [[1, 2], [3]] by decide +kernel] at hrun
    dsimp only at hrun
    rw [show responsePlains .ok _ = some [[1, 2], [9]] by decide +kernel] at hrun
    exact hrun
  obtain hsame | ⟨e, -, hrefused, -⟩ := outcome_independent_of_cuts .sequential .ok .sequential true {} {}
    (show [[0x0A, 0x07, 0x0A, 0x02, 0x01, 0x02, 0x0A, 0x01, 0x03]].flatten =
      [[0x0A, 0x07, 0x0A, 0x02, 0x01], [0x02, 0x0A, 0x01], [], [0x03]].flatten from rfl)
    (show [[0x0A, 0x02, 0x01, 0x02, 0x0A, 0x01, 0x09]].flatten =
      [[0x0A, 0x02, 0x01], [0x02, 0x0A], [0x01, 0x09]].flatten from rfl)
  · exact hsame.symm.trans hwhole
  · rw [hwhole] at hrefused
    cases hrefused

end Run

end PsiMatch
end PrivateSetIntersection
