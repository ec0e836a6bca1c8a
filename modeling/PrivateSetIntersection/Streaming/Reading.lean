import PrivateSetIntersection.Library.Automaton
import PrivateSetIntersection.Streaming.EntryReader

/-! `EntryReader::Feed` reads one byte at a time: the entry handed over in place and
the one collected in the buffer are the same, so a window is just its bytes. -/
namespace PrivateSetIntersection
open Library Automaton

/-- Where a reader stands, without the buffer contents it will not use again. -/
inductive Reading where
  | tag
  | varint (value bytesRead : Nat)
  | element (size : Nat) (got : Bytes)
  deriving DecidableEq

namespace Reading

/-- One byte: where the reader stands after it, and the entry it completes. -/
def next : Reading → UInt8 → Except Error (Reading × Option Bytes)
  | .tag, byte =>
    if byte ≠ kField1LengthDelimited then .error EntryReader.unexpectedField
    else .ok (.varint 0 0, none)
  | .varint value bytesRead, byte =>
    match addVarint32Byte byte value bytesRead "element" with
    | .error e => .error e
    | .ok (done, value, bytesRead) =>
      if ¬ done then .ok (.varint value bytesRead, none)
      else if value > kMaxElementBytes then .error (EntryReader.tooLong value)
      else if value = 0 then .ok (.tag, some [])
      else .ok (.element value [], none)
  | .element size got, byte =>
    if (got ++ [byte]).length = size then .ok (.tag, some (got ++ [byte]))
    else .ok (.element size (got ++ [byte]), none)

/-- An element being read is not complete, and will fit a slot. -/
def Fits : Reading → Prop
  | .element size got => got.length < size ∧ size ≤ kMaxElementBytes
  | _ => True

theorem Fits.next {ρ ρ' : Reading} {byte : UInt8} {out : Option Bytes} (h : ρ.Fits)
    (hnext : ρ.next byte = .ok (ρ', out)) :
    ρ'.Fits ∧ ∀ entry ∈ out, entry.length ≤ kMaxElementBytes := by
  cases ρ with
  | tag =>
    rw [Reading.next] at hnext
    split at hnext <;> cases hnext
    exact ⟨trivial, nofun⟩
  | varint value bytesRead =>
    rw [Reading.next] at hnext
    split at hnext
    · cases hnext
    · split at hnext
      · cases hnext
        exact ⟨trivial, nofun⟩
      · split at hnext
        · cases hnext
        · rename_i htoo
          split at hnext <;> cases hnext
          · exact ⟨trivial, by simp⟩
          · exact ⟨⟨by simp; omega, by omega⟩, nofun⟩
  | element size got =>
    obtain ⟨hgot, hsize⟩ := h
    rw [Reading.next] at hnext
    split at hnext <;> cases hnext
    · rename_i hlen
      exact ⟨trivial, by simpa using hlen.trans_le hsize⟩
    · rename_i hlen
      rw [List.length_append, List.length_singleton] at hlen
      exact ⟨⟨by rw [List.length_append, List.length_singleton]; omega, hsize⟩, nofun⟩

end Reading

section Reader
variable {σ : Type}

/-- What a callback with a status answers, its state kept on acceptance only. -/
def accepted : Status × σ → Except Error σ
  | (.ok, s) => .ok s
  | (.error e, _) => .error e

/-- One byte with the callback on the entry it completes. -/
def readByte (onEntry : Bytes → σ → Except Error σ) (state : Reading × σ) (byte : UInt8) :
    Except Error (Reading × σ) :=
  match state.1.next byte with
  | .error e => .error e
  | .ok (reading, none) => .ok (reading, state.2)
  | .ok (reading, some entry) =>
    match onEntry entry state.2 with
    | .error e => .error e
    | .ok s => .ok (reading, s)

variable {onEntry : Bytes → σ → Except Error σ}

theorem readByte_error {ρ : Reading} {s : σ} {byte : UInt8} {e : Error} (h : ρ.next byte = .error e) :
    readByte onEntry (ρ, s) byte = .error e := by
  simp [readByte, h]

theorem readByte_none {ρ ρ' : Reading} {s : σ} {byte : UInt8} (h : ρ.next byte = .ok (ρ', none)) :
    readByte onEntry (ρ, s) byte = .ok (ρ', s) := by
  simp [readByte, h]

theorem readByte_some {ρ ρ' : Reading} {s : σ} {byte : UInt8} {entry : Bytes}
    (h : ρ.next byte = .ok (ρ', some entry)) :
    readByte onEntry (ρ, s) byte = match onEntry entry s with
      | .error e => .error e
      | .ok s => .ok (ρ', s) := by
  simp [readByte, h]

variable (onEntry)

/-- Inside an element, bytes that do not complete it only pile up. -/
theorem run_element_inside (size : Nat) (got bytes : Bytes) (s : σ)
    (h : got.length + bytes.length < size) :
    run (readByte onEntry) (.element size got, s) bytes = .ok (.element size (got ++ bytes), s) := by
  induction bytes generalizing got with
  | nil => simp
  | cons byte bytes ih =>
    rw [List.length_cons] at h
    have hnext : (Reading.element size got).next byte = .ok (.element size (got ++ [byte]), none) := by
      rw [Reading.next, if_neg]
      simp only [List.length_append, List.length_singleton]
      omega
    rw [run_cons_ok _ (readByte_none hnext), ih]
    · simp
    · simp only [List.length_append, List.length_singleton]
      omega

/-- The byte that completes an element hands it over. -/
theorem run_element_complete (size : Nat) (got bytes : Bytes) (s : σ) (hgot : got.length < size)
    (h : got.length + bytes.length = size) :
    run (readByte onEntry) (.element size got, s) bytes =
      match onEntry (got ++ bytes) s with
      | .error e => .error e
      | .ok s => .ok (.tag, s) := by
  rcases List.eq_nil_or_concat bytes with rfl | ⟨init, last, rfl⟩
  · rw [List.length_nil] at h
    omega
  · rw [List.concat_eq_append] at h ⊢
    simp only [List.length_append, List.length_singleton] at h
    have hnext : (Reading.element size (got ++ init)).next last =
        .ok (.tag, some (got ++ init ++ [last])) := by
      rw [Reading.next, if_pos]
      simp only [List.length_append, List.length_singleton]
      omega
    have hlast : readByte onEntry (.element size (got ++ init), s) last = _ := readByte_some hnext
    rw [run_append_ok _ (run_element_inside onEntry size got init s (by omega))]
    rw [List.append_assoc] at hlast
    cases ho : onEntry (got ++ (init ++ [last])) s with
    | ok s' =>
      rw [ho] at hlast
      rw [run_cons_ok _ hlast, run_nil]
    | error e =>
      rw [ho] at hlast
      rw [run_cons_error _ hlast]

end Reader

def EntryReader.reading (reader : EntryReader) : Reading :=
  match reader.state with
  | .tag => .tag
  | .length => .varint reader.length reader.lengthBytes
  | .body => .element reader.length reader.body

theorem EntryReader.reading_of_body {reader : EntryReader} (hs : reader.state = .body) :
    reader.reading = .element reader.length reader.body := by
  rw [EntryReader.reading, hs]

theorem EntryReader.reading_fits (reader : EntryReader) : reader.reading.Fits := by
  cases hs : reader.state with
  | tag => simp only [EntryReader.reading, hs, Reading.Fits]
  | length => simp only [EntryReader.reading, hs, Reading.Fits]
  | body =>
    rw [EntryReader.reading_of_body hs]
    exact reader.inside hs

theorem EntryReader.atEntryBoundary_iff (reader : EntryReader) :
    reader.atEntryBoundary = true ↔ reader.reading = .tag := by
  unfold EntryReader.atEntryBoundary EntryReader.reading
  cases reader.state <;> simp

/-- A window was read as its bytes were: accepted with the same state and standing, or
refused with the same error. -/
inductive Fed {σ : Type} : Status × EntryReader × σ → Except Error (Reading × σ) → Prop where
  | ok (reader : EntryReader) (s : σ) : Fed (.ok, reader, s) (.ok (reader.reading, s))
  | error (e : Error) (reader : EntryReader) (s : σ) : Fed (.error e, reader, s) (.error e)

section Feed
variable {σ : Type} (onEntry : Bytes → σ → Status × σ)

abbrev readEntryByte : Reading × σ → UInt8 → Except Error (Reading × σ) :=
  readByte (fun entry s => accepted (onEntry entry s))

/-- Handing an entry over and going on, in both readers. -/
theorem Fed.handOver {reader : EntryReader} {s : σ} {entry head rest bytes : Bytes}
    {ρ : Reading × σ} (hcut : head ++ rest = bytes)
    (hrun : run (readEntryByte onEntry) ρ head =
      match accepted (onEntry entry s) with
      | .error e => .error e
      | .ok s => .ok (.tag, s))
    (ht : reader.reading = .tag)
    (ih : ∀ s, Fed (reader.feed onEntry s rest)
      (run (readEntryByte onEntry) (reader.reading, s) rest)) :
    Fed (match onEntry entry s with
      | (.error e, s) => (.error e, reader, s)
      | (.ok, s) => reader.feed onEntry s rest)
      (run (readEntryByte onEntry) ρ bytes) := by
  subst hcut
  rcases hanswer : onEntry entry s with ⟨_ | e, s'⟩
  · rw [hanswer] at hrun
    rw [run_append_ok _ hrun, ← ht]
    exact ih s'
  · rw [hanswer] at hrun
    rw [run_append_error _ hrun]
    exact .error e reader s'

def FeedReads (bytes : Bytes) : Prop :=
  ∀ (reader : EntryReader) (s : σ), Fed (reader.feed onEntry s bytes)
    (run (readEntryByte onEntry) (reader.reading, s) bytes)

private theorem feed_reads_tag (reader : EntryReader) (s : σ) (byte : UInt8) (rest : Bytes)
    (hs : reader.state = .tag) (ih : FeedReads onEntry rest) :
    Fed (reader.feed onEntry s (byte :: rest))
      (run (readEntryByte onEntry) (reader.reading, s) (byte :: rest)) := by
  have hreading : reader.reading = .tag := by rw [EntryReader.reading, hs]
  rw [EntryReader.feed, hreading]
  split <;> rename_i hstate
  · split <;> rename_i hbyte
    · have hnext : Reading.tag.next byte = .error EntryReader.unexpectedField := if_pos hbyte
      rw [run_cons_error _ (readByte_error hnext)]
      exact .error _ reader s
    · have hnext : Reading.tag.next byte = .ok (.varint 0 0, none) := if_neg hbyte
      rw [run_cons_ok _ (readByte_none hnext)]
      exact ih _ s
  all_goals
    rw [hs] at hstate
    cases hstate

private theorem feed_reads_length (reader : EntryReader) (s : σ) (byte : UInt8) (rest : Bytes)
    (hs : reader.state = .length) (ih : FeedReads onEntry rest) :
    Fed (reader.feed onEntry s (byte :: rest))
      (run (readEntryByte onEntry) (reader.reading, s) (byte :: rest)) := by
  have hreading : reader.reading = .varint reader.length reader.lengthBytes := by
    rw [EntryReader.reading, hs]
  rw [EntryReader.feed, hreading]
  split <;> rename_i hstate
  · rw [hs] at hstate
    cases hstate
  · cases hv : addVarint32Byte byte reader.length reader.lengthBytes "element" with
    | error e =>
      have hnext : (Reading.varint reader.length reader.lengthBytes).next byte = .error e := by
        simp only [Reading.next, hv]
      rw [run_cons_error _ (readByte_error hnext)]
      exact .error e reader s
    | ok answer =>
      obtain ⟨done, length, lengthBytes⟩ := answer
      dsimp only
      split <;> rename_i hdone
      · have hnext : (Reading.varint reader.length reader.lengthBytes).next byte =
            .ok (.varint length lengthBytes, none) := by
          simp only [Reading.next, hv, if_pos hdone]
        rw [run_cons_ok _ (readByte_none hnext)]
        exact ih _ s
      · split <;> rename_i htoo
        · have hnext : (Reading.varint reader.length reader.lengthBytes).next byte =
              .error (EntryReader.tooLong length) := by
            simp only [Reading.next, hv, if_neg hdone, if_pos htoo]
          rw [run_cons_error _ (readByte_error hnext)]
          exact .error _ _ s
        · split <;> rename_i hzero
          · have hnext : (Reading.varint reader.length reader.lengthBytes).next byte =
                .ok (.tag, some []) := by
              simp only [Reading.next, hv, if_neg hdone, if_neg htoo, if_pos hzero]
            refine Fed.handOver onEntry (show [byte] ++ rest = byte :: rest from rfl) ?_ rfl (fun s => ih _ s)
            rw [run_singleton]
            exact readByte_some hnext
          · have hnext : (Reading.varint reader.length reader.lengthBytes).next byte =
                .ok (.element length [], none) := by
              simp only [Reading.next, hv, if_neg hdone, if_neg htoo, if_neg hzero]
            rw [run_cons_ok _ (readByte_none hnext)]
            exact ih _ s
  · rw [hs] at hstate
    cases hstate

private theorem feed_reads_body (reader : EntryReader) (s : σ) (byte : UInt8) (rest : Bytes)
    (hs : reader.state = .body)
    (ih : ∀ shorter : Bytes, shorter.length < (byte :: rest).length → FeedReads onEntry shorter) :
    Fed (reader.feed onEntry s (byte :: rest))
      (run (readEntryByte onEntry) (reader.reading, s) (byte :: rest)) := by
  have hreading := EntryReader.reading_of_body hs
  have hinside := (reader.inside hs).1
  rw [EntryReader.feed, hreading]
  split <;> rename_i hstate
  · rw [hs] at hstate
    cases hstate
  · rw [hs] at hstate
    cases hstate
  · dsimp only
    split <;> rename_i hwhole
    · -- in place: the window holds all of the element
      have hw : reader.length - reader.body.length ≤ (byte :: rest).length := hwhole.2
      have hrun := run_element_complete (fun entry s => accepted (onEntry entry s))
        reader.length reader.body ((byte :: rest).take (reader.length - reader.body.length)) s hinside
        (by rw [List.length_take_of_le hw]; omega)
      rw [hwhole.1, List.nil_append, ← hwhole.1] at hrun
      have hshort : ((byte :: rest).drop (reader.length - reader.body.length)).length <
          (byte :: rest).length := by
        rw [List.length_drop]
        simp only [List.length_cons]
        omega
      exact Fed.handOver onEntry (List.take_append_drop _ _) hrun rfl (fun s => ih _ hshort _ s)
    · -- through the buffer
      have htake : min (reader.length - reader.body.length) (byte :: rest).length ≤
          (byte :: rest).length := Nat.min_le_right _ _
      have hshort : ((byte :: rest).drop
          (min (reader.length - reader.body.length) (byte :: rest).length)).length <
          (byte :: rest).length := by
        rw [List.length_drop]
        simp only [List.length_cons]
        omega
      split <;> rename_i hlen
      · have hrun := run_element_complete (fun entry s => accepted (onEntry entry s))
          reader.length reader.body _ s hinside (by rw [← List.length_append]; exact hlen)
        exact Fed.handOver onEntry (List.take_append_drop _ _) hrun rfl (fun s => ih _ hshort _ s)
      · have hpart := run_element_inside (fun entry s => accepted (onEntry entry s))
          reader.length reader.body
          ((byte :: rest).take (min (reader.length - reader.body.length) (byte :: rest).length)) s (by
            rw [List.length_append] at hlen
            rw [List.length_take] at hlen ⊢
            omega)
        have hrest := run_append_ok _ hpart
          ((byte :: rest).drop (min (reader.length - reader.body.length) (byte :: rest).length))
        rw [List.take_append_drop] at hrest
        rw [hrest]
        have hfed := ih _ hshort { reader with
          body := reader.body ++
            (byte :: rest).take (min (reader.length - reader.body.length) (byte :: rest).length)
          inside := fun _ => ⟨by
            rw [List.length_append] at hlen ⊢
            rw [List.length_take] at hlen ⊢
            omega, (reader.inside hs).2⟩ } s
        simpa only [EntryReader.reading, hs] using hfed

/-- `Feed` on a window is the byte-wise reader on its bytes. -/
theorem EntryReader.feed_reads (bytes : Bytes) : FeedReads onEntry bytes := by
  induction hn : bytes.length using Nat.strong_induction_on generalizing bytes with
  | _ n ih =>
    subst hn
    intro reader s
    cases bytes with
    | nil =>
      rw [EntryReader.feed, run_nil]
      exact .ok reader s
    | cons byte rest =>
      have hrest : rest.length < (byte :: rest).length := Nat.lt_succ_self _
      cases hs : reader.state with
      | tag => exact feed_reads_tag onEntry reader s byte rest hs (ih _ hrest rest rfl)
      | length => exact feed_reads_length onEntry reader s byte rest hs (ih _ hrest rest rfl)
      | body => exact feed_reads_body onEntry reader s byte rest hs (fun w hw => ih _ hw w rfl)

end Feed

end PrivateSetIntersection
