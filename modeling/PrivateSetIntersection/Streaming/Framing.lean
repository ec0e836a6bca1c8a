import PrivateSetIntersection.Streaming.Reading
import PrivateSetIntersection.Streaming.SetupStore

/-! `AddSetupBytes` reads one byte at a time too: the framing of the setup around the
entry reader, with the accepted elements as its state. -/
namespace PrivateSetIntersection
open Library Automaton PsiMatch

inductive Framing where
  | tag
  | varint (value bytesRead : Nat)
  | body (remaining : Nat) (reading : Reading)
  | done
  deriving DecidableEq

section Frame
variable {σ : Type} (onEntry : Bytes → σ → Except Error σ)

/-- One byte of the setup, with the callback on the entry it completes. -/
def frameByte (state : Framing × σ) (byte : UInt8) : Except Error (Framing × σ) :=
  match state.1 with
  | .tag =>
    if byte ≠ kField1LengthDelimited then .error notRaw else .ok (.varint 0 0, state.2)
  | .varint value bytesRead =>
    match addVarint32Byte byte value bytesRead "server setup" with
    | .error e => .error e
    | .ok (done, value, bytesRead) =>
      if ¬ done then .ok (.varint value bytesRead, state.2)
      else .ok (if value = 0 then .done else .body value .tag, state.2)
  | .body remaining reading =>
    match readByte onEntry (reading, state.2) byte with
    | .error e => .error e
    | .ok (reading, s) =>
      if remaining - 1 = 0 then
        if reading = .tag then .ok (.done, s) else .error pastTheEnd
      else .ok (.body (remaining - 1) reading, s)
  | .done => .error bytesAfter

/-- The body's bytes go to the entry reader, as long as more are to come. -/
theorem run_body_inside (remaining : Nat) (reading : Reading) (s : σ) (bytes : Bytes)
    (h : bytes.length < remaining) :
    run (frameByte onEntry) (.body remaining reading, s) bytes =
      match run (readByte onEntry) (reading, s) bytes with
      | .error e => .error e
      | .ok (reading, s) => .ok (.body (remaining - bytes.length) reading, s) := by
  induction bytes generalizing remaining reading s with
  | nil => rfl
  | cons byte bytes ih =>
    rw [List.length_cons] at h
    cases hread : readByte onEntry (reading, s) byte with
    | error e =>
      have hframe : frameByte onEntry (.body remaining reading, s) byte = .error e := by
        simp only [frameByte, hread]
      rw [run_cons_error _ hframe, run_cons_error _ hread]
    | ok next =>
      obtain ⟨reading', s'⟩ := next
      have hframe : frameByte onEntry (.body remaining reading, s) byte =
          .ok (.body (remaining - 1) reading', s') := by
        simp only [frameByte, hread]
        rw [if_neg (by omega)]
      rw [run_cons_ok _ hframe, run_cons_ok _ hread, ih _ _ _ (by omega), List.length_cons,
        Nat.sub_sub, Nat.add_comm 1]

/-- The body's last byte must end an entry. -/
theorem run_body_complete (remaining : Nat) (reading : Reading) (s : σ) (bytes : Bytes)
    (hpos : 0 < remaining) (h : bytes.length = remaining) :
    run (frameByte onEntry) (.body remaining reading, s) bytes =
      match run (readByte onEntry) (reading, s) bytes with
      | .error e => .error e
      | .ok (reading, s) => if reading = .tag then .ok (.done, s) else .error pastTheEnd := by
  rcases List.eq_nil_or_concat bytes with rfl | ⟨init, last, rfl⟩
  · rw [List.length_nil] at h
    omega
  · rw [List.concat_eq_append] at h ⊢
    rw [List.length_append, List.length_singleton] at h
    have hinit := run_body_inside onEntry remaining reading s init (by omega)
    cases hread : run (readByte onEntry) (reading, s) init with
    | error e =>
      rw [hread] at hinit
      rw [run_append_error _ hinit, run_append_error _ hread]
    | ok next =>
      obtain ⟨reading', s'⟩ := next
      rw [hread] at hinit
      rw [run_append_ok _ hinit, run_append_ok _ hread, run_singleton, run_singleton]
      have hlast : remaining - init.length - 1 = 0 := by omega
      simp only [frameByte, hlast, if_true]

/-- What is taken of a window inside the body: all of it, or up to the body's end. -/
theorem run_body_take (remaining : Nat) (reading : Reading) (s : σ) (bytes : Bytes)
    (hpos : 0 < remaining) :
    run (frameByte onEntry) (.body remaining reading, s) (bytes.take (min remaining bytes.length)) =
      match run (readByte onEntry) (reading, s) (bytes.take (min remaining bytes.length)) with
      | .error e => .error e
      | .ok (reading, s) =>
        if remaining - min remaining bytes.length = 0 then
          if reading = .tag then .ok (.done, s) else .error pastTheEnd
        else .ok (.body (remaining - min remaining bytes.length) reading, s) := by
  have hlength : (bytes.take (min remaining bytes.length)).length = min remaining bytes.length := by
    rw [List.length_take]
    omega
  by_cases hall : remaining - min remaining bytes.length = 0
  · rw [run_body_complete onEntry _ _ _ _ hpos (by omega)]
    cases run (readByte onEntry) (reading, s) (bytes.take (min remaining bytes.length)) with
    | error e => rfl
    | ok answer => simp only [if_pos hall]
  · rw [run_body_inside onEntry _ _ _ _ (by omega), hlength]
    cases run (readByte onEntry) (reading, s) (bytes.take (min remaining bytes.length)) with
    | error e => rfl
    | ok answer => simp only [if_neg hall]

end Frame

structure Untouched (reveal : Bool) (m : PsiMatch) : Prop where
  revealIntersection : m.revealIntersection = reveal
  responseReader : m.responseReader.reading = .tag
  batch : m.batch = []
  decryptedCount : m.decryptedCount = 0
  responseIndices : m.responseIndices = []
  setupIndices : m.setupIndices = []

def PsiMatch.FramedAs (m : PsiMatch) : Framing → Prop
  | .tag => m.setupFrame = .tag ∧ m.rawLength = 0 ∧ m.rawLengthBytes = 0 ∧
      m.setupReader.reading = .tag
  | .varint value bytesRead => m.setupFrame = .length ∧ m.rawLength = value ∧
      m.rawLengthBytes = bytesRead ∧ m.setupReader.reading = .tag
  | .body remaining reading => m.setupFrame = .body ∧ m.rawRemaining = remaining ∧
      0 < remaining ∧ m.setupReader.reading = reading
  | .done => m.setupFrame = .done

/-- An object in its setup phase, with the standing of its framing and its elements. -/
structure Tracks (reveal : Bool) (m : PsiMatch) (framing : Framing) (es : List Bytes) : Prop where
  failure : m.failure = .ok
  phase : m.phase = .setup
  untouched : Untouched reveal m
  stores : Stores m es
  framed : m.FramedAs framing

theorem Tracks.fresh (reveal : Bool) : Tracks reveal { revealIntersection := reveal } .tag [] where
  failure := rfl
  phase := rfl
  untouched := ⟨rfl, rfl, rfl, rfl, rfl, rfl⟩
  stores := .empty rfl rfl
  framed := ⟨rfl, rfl, rfl, rfl⟩

/-- The status of a setup call and the object after it, against the byte-wise reading. -/
inductive SetupAnswer (reveal : Bool) :
    Status × PsiMatch → Except Error (Framing × List Bytes) → Prop where
  | ok {m : PsiMatch} {framing : Framing} {es : List Bytes} (h : Tracks reveal m framing es) :
      SetupAnswer reveal (.ok, m) (.ok (framing, es))
  | error {e : Error} {m : PsiMatch} (h : m.failure = .error e) :
      SetupAnswer reveal (.error e, m) (.error e)

/-- The two readers stand alike, and the object differs from `m` in its store only. -/
private def Collecting (m : PsiMatch) (reader : Reading × PsiMatch) (state : Reading × List Bytes) :
    Prop :=
  reader.1 = state.1 ∧ reader.1.Fits ∧ Stores reader.2 state.2 ∧ ∃ blocks,
    reader.2 = { m with setupBlocks := blocks, setupCount := state.2.length }

private theorem readByte_collects {m : PsiMatch} (reader : Reading × PsiMatch)
    (state : Reading × List Bytes) (byte : UInt8) (h : Collecting m reader state) :
    Agree (Collecting m) (readEntryByte addSetupElement reader byte)
      (readByte collect state byte) := by
  obtain ⟨ρ, m'⟩ := reader
  obtain ⟨ρ', es⟩ := state
  obtain ⟨hρ, hfits, hstores, blocks, hm⟩ := h
  dsimp only at hρ hfits hstores hm
  subst hρ
  cases hnext : ρ.next byte with
  | error e =>
    rw [readByte_error hnext, readEntryByte, readByte_error hnext]
    exact .error e
  | ok answer =>
    obtain ⟨ρ', out⟩ := answer
    obtain ⟨hfits', hout⟩ := hfits.next hnext
    cases out with
    | none =>
      rw [readByte_none hnext, readEntryByte, readByte_none hnext]
      exact .ok ⟨rfl, hfits', hstores, blocks, hm⟩
    | some entry =>
      rw [readByte_some hnext, readEntryByte, readByte_some hnext]
      have hadd := addSetupElement_collects hstores (hout entry rfl)
      cases hc : collect entry es with
      | error e =>
        rw [hc] at hadd
        rw [hadd]
        exact .error e
      | ok es' =>
        rw [hc] at hadd
        obtain ⟨blocks', hadd, hstores'⟩ := hadd
        rw [hadd]
        exact .ok ⟨rfl, hfits', hstores', blocks', by rw [hm]⟩

/-- The entry reader inside the setup: its callback stores what `collect` collects. -/
theorem feed_collects {m : PsiMatch} {es : List Bytes} (h : Stores m es) (bytes : Bytes) :
    match run (readByte collect) (m.setupReader.reading, es) bytes with
    | .error e => ∃ reader m', m.setupReader.feed addSetupElement m bytes = (.error e, reader, m')
    | .ok (reading, es') => ∃ reader blocks, reader.reading = reading ∧
        m.setupReader.feed addSetupElement m bytes =
          (.ok, reader, { m with setupBlocks := blocks, setupCount := es'.length }) ∧
        Stores { m with setupBlocks := blocks, setupCount := es'.length } es' := by
  have hfed := EntryReader.feed_reads addSetupElement bytes m.setupReader m
  have hagree : Agree (Collecting m)
      (run (readEntryByte addSetupElement) (m.setupReader.reading, m) bytes)
      (run (readByte collect) (m.setupReader.reading, es) bytes) :=
    Agree.run readByte_collects
      ⟨rfl, m.setupReader.reading_fits, h, m.setupBlocks, by rw [← h.count]⟩ bytes
  generalize m.setupReader.feed addSetupElement m bytes = answer at hfed
  generalize run (readEntryByte addSetupElement) (m.setupReader.reading, m) bytes = read at hfed hagree
  generalize run (readByte collect) (m.setupReader.reading, es) bytes = collected at hagree
  cases hagree with
  | error e =>
    cases hfed with
    | error _ reader m' => exact ⟨reader, m', rfl⟩
  | ok hcollecting =>
    cases hfed with
    | ok reader m' =>
      obtain ⟨hreading, -, hstores, blocks, rfl⟩ := hcollecting
      exact ⟨reader, blocks, hreading, rfl, hstores⟩

section Loop
variable {reveal : Bool} {m : PsiMatch} {es : List Bytes}

/-- The object reads these bytes as the framing does, wherever both stand. -/
private def LoopTracks (reveal : Bool) (bytes : Bytes) : Prop :=
  ∀ (m : PsiMatch) (framing : Framing) (es : List Bytes), Tracks reveal m framing es →
    SetupAnswer reveal (m.addSetupLoop bytes) (run (frameByte collect) (framing, es) bytes)

private theorem loop_tracks_tag (h : Tracks reveal m .tag es) (byte : UInt8) (rest : Bytes)
    (ih : LoopTracks reveal rest) :
    SetupAnswer reveal (m.addSetupLoop (byte :: rest))
      (run (frameByte collect) (.tag, es) (byte :: rest)) := by
  obtain ⟨hs, hlength, hbytes, hreader⟩ := h.framed
  rw [addSetupLoop]
  split <;> rename_i hstate
  · split <;> rename_i hbyte
    · have hframe : frameByte collect (.tag, es) byte = .error notRaw := if_pos hbyte
      rw [run_cons_error _ hframe]
      exact .error rfl
    · have hframe : frameByte collect (.tag, es) byte = .ok (.varint 0 0, es) := if_neg hbyte
      rw [run_cons_ok _ hframe]
      exact ih _ _ _ ⟨h.failure, h.phase, { h.untouched with }, { h.stores with },
        rfl, hlength, hbytes, hreader⟩
  all_goals
    rw [hs] at hstate
    cases hstate

private theorem loop_tracks_varint {value bytesRead : Nat} (h : Tracks reveal m (.varint value bytesRead) es)
    (byte : UInt8) (rest : Bytes) (ih : LoopTracks reveal rest) :
    SetupAnswer reveal (m.addSetupLoop (byte :: rest))
      (run (frameByte collect) (.varint value bytesRead, es) (byte :: rest)) := by
  obtain ⟨hs, rfl, rfl, hreader⟩ := h.framed
  rw [addSetupLoop]
  split <;> rename_i hstate
  · rw [hs] at hstate
    cases hstate
  · cases hv : addVarint32Byte byte m.rawLength m.rawLengthBytes "server setup" with
    | error e =>
      have hframe : frameByte collect (.varint m.rawLength m.rawLengthBytes, es) byte = .error e := by
        simp only [frameByte, hv]
      rw [run_cons_error _ hframe]
      exact .error rfl
    | ok answer =>
      obtain ⟨done, rawLength, rawLengthBytes⟩ := answer
      dsimp only
      split <;> rename_i hdone
      · have hframe : frameByte collect (.varint m.rawLength m.rawLengthBytes, es) byte =
            .ok (.varint rawLength rawLengthBytes, es) := by
          simp only [frameByte, hv, if_pos hdone]
        rw [run_cons_ok _ hframe]
        exact ih _ _ _ ⟨h.failure, h.phase, { h.untouched with }, { h.stores with },
          hs, rfl, rfl, hreader⟩
      · have hframe : frameByte collect (.varint m.rawLength m.rawLengthBytes, es) byte =
            .ok (if rawLength = 0 then .done else .body rawLength .tag, es) := by
          simp only [frameByte, hv, if_neg hdone]
        rw [run_cons_ok _ hframe]
        refine ih _ _ _ ⟨h.failure, h.phase, { h.untouched with }, { h.stores with }, ?_⟩
        by_cases hzero : rawLength = 0
        · simp only [if_pos hzero]
          exact rfl
        · simp only [if_neg hzero]
          exact ⟨rfl, rfl, Nat.pos_of_ne_zero hzero, hreader⟩
  all_goals
    rw [hs] at hstate
    cases hstate

private theorem loop_tracks_body {remaining : Nat} {reading : Reading}
    (h : Tracks reveal m (.body remaining reading) es) (byte : UInt8) (rest : Bytes)
    (ih : ∀ shorter : Bytes, shorter.length < (byte :: rest).length → LoopTracks reveal shorter) :
    SetupAnswer reveal (m.addSetupLoop (byte :: rest))
      (run (frameByte collect) (.body remaining reading, es) (byte :: rest)) := by
  obtain ⟨hs, rfl, hpos, rfl⟩ := h.framed
  rw [addSetupLoop]
  split <;> rename_i hstate
  · rw [hs] at hstate
    cases hstate
  · rw [hs] at hstate
    cases hstate
  · have hframe := run_body_take collect m.rawRemaining m.setupReader.reading es (byte :: rest) hpos
    generalize hbytes : byte :: rest = bytes at ih hframe ⊢
    have hne : 0 < bytes.length := by simp [← hbytes]
    have hshort : (bytes.drop (min m.rawRemaining bytes.length)).length < bytes.length := by
      rw [List.length_drop]
      omega
    generalize min m.rawRemaining bytes.length = take at hframe hshort ⊢
    have hcut := List.take_append_drop take bytes
    have hcollect := feed_collects h.stores (bytes.take take)
    dsimp only
    cases hread : run (readByte collect) (m.setupReader.reading, es) (bytes.take take) with
    | error e =>
      rw [hread] at hcollect hframe
      obtain ⟨reader, m', hfeed⟩ := hcollect
      rw [hfeed, ← hcut, run_append_error _ hframe]
      exact .error rfl
    | ok answer =>
      obtain ⟨reading, es'⟩ := answer
      rw [hread] at hcollect hframe
      obtain ⟨reader, blocks, rfl, hfeed, hstores⟩ := hcollect
      rw [hfeed]
      dsimp only at hframe ⊢
      by_cases hall : m.rawRemaining - take = 0
      · rw [if_pos hall] at hframe ⊢
        by_cases htag : reader.reading = .tag
        · rw [if_pos htag] at hframe
          rw [if_neg (not_not.mpr (reader.atEntryBoundary_iff.mpr htag)),
            ← congrArg (run (frameByte collect) _) hcut, run_append_ok _ hframe]
          exact ih _ hshort _ _ _ ⟨h.failure, h.phase, { h.untouched with }, { hstores with }, rfl⟩
        · rw [if_neg htag] at hframe
          rw [if_pos (fun hat => htag (reader.atEntryBoundary_iff.mp hat)),
            ← congrArg (run (frameByte collect) _) hcut, run_append_error _ hframe]
          exact .error rfl
      · rw [if_neg hall] at hframe ⊢
        rw [← congrArg (run (frameByte collect) _) hcut, run_append_ok _ hframe]
        exact ih _ hshort _ _ _ ⟨h.failure, h.phase, { h.untouched with }, { hstores with },
          hs, rfl, Nat.pos_of_ne_zero hall, rfl⟩
  · rw [hs] at hstate
    cases hstate

private theorem loop_tracks_done (h : Tracks reveal m .done es) (byte : UInt8) (rest : Bytes) :
    SetupAnswer reveal (m.addSetupLoop (byte :: rest))
      (run (frameByte collect) (.done, es) (byte :: rest)) := by
  have hs : m.setupFrame = .done := h.framed
  have hframe : frameByte collect (.done, es) byte = .error bytesAfter := rfl
  rw [addSetupLoop, run_cons_error _ hframe]
  split <;> rename_i hstate
  · rw [hs] at hstate
    cases hstate
  · rw [hs] at hstate
    cases hstate
  · rw [hs] at hstate
    cases hstate
  · exact .error rfl

/-- The loop of `AddSetupBytes` reads a window as the framing reads its bytes. -/
theorem addSetupLoop_tracks (bytes : Bytes) : LoopTracks reveal bytes := by
  induction hn : bytes.length using Nat.strong_induction_on generalizing bytes with
  | _ n ih =>
    intro m framing es h
    cases bytes with
    | nil =>
      rw [addSetupLoop, run_nil]
      exact .ok h
    | cons byte rest =>
      have hrest : LoopTracks reveal rest := ih _ (by simp [← hn]) rest rfl
      cases framing with
      | tag => exact loop_tracks_tag h byte rest hrest
      | varint value bytesRead => exact loop_tracks_varint h byte rest hrest
      | body remaining reading =>
        exact loop_tracks_body h byte rest (fun shorter hlt => ih _ (by omega) shorter rfl)
      | done => exact loop_tracks_done h byte rest

end Loop

theorem addSetupBytes_tracks {reveal : Bool} {m : PsiMatch} {framing : Framing} {es : List Bytes}
    (h : Tracks reveal m framing es) (bytes : Bytes) :
    SetupAnswer reveal (m.addSetupBytes bytes) (run (frameByte collect) (framing, es) bytes) := by
  rw [addSetupBytes, h.failure]
  dsimp only
  rw [if_neg (not_not.mpr h.phase)]
  exact addSetupLoop_tracks bytes m framing es h

end PrivateSetIntersection
