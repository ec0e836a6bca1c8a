import PrivateSetIntersection.Status

/-! `PsiMatch::EntryReader` and the varint accumulator it shares with the setup's
framing. A window is the part of its bytes not yet consumed. -/
namespace PrivateSetIntersection
open Library

def kField1LengthDelimited : UInt8 := 0x0A
def kMaxVarint32Bytes : Nat := 5
def kMaxElementBytes : Nat := 33

/-- Whether the varint is complete, and the new `*value` and `*bytes_read`. -/
def addVarint32Byte (byte : UInt8) (value bytesRead : Nat) (what : String) :
    Except Error (Bool × Nat × Nat) :=
  if bytesRead = kMaxVarint32Bytes - 1 ∧ byte &&& 0xF0 ≠ 0 then
    .error (invalidArgumentError (what ++ " length does not fit in 32 bits"))
  else
    .ok (decide (byte &&& 0x80 = 0),
      value ||| ((byte &&& 0x7F).toNat <<< (7 * bytesRead)) % 2 ^ 32, bytesRead + 1)

inductive EntryReader.State where
  | tag | length | body
  deriving DecidableEq, Repr

/-- A reader inside an element still misses bytes of it, and the element fits a slot. -/
structure EntryReader where
  state : EntryReader.State := .tag
  length : Nat := 0
  lengthBytes : Nat := 0
  body : Bytes := []
  inside : state = .body → body.length < length ∧ length ≤ kMaxElementBytes := by nofun
  deriving DecidableEq

namespace EntryReader

def unexpectedField : Error := invalidArgumentError
  "unexpected field: only encrypted_elements entries are accepted"

def tooLong (length : Nat) : Error := invalidArgumentError
  ("element of " ++ toString length ++ " bytes is longer than the "
    ++ toString kMaxElementBytes ++ "-byte maximum")

/-- `Feed`: consume the window, handing every entry it completes to `onEntry`, whose
state is threaded through. A refusal leaves the reader and the state as they are. -/
def feed {σ : Type} (onEntry : Bytes → σ → Status × σ) (reader : EntryReader) (s : σ) :
    (bytes : Bytes) → Status × EntryReader × σ
  | [] => (.ok, reader, s)
  | byte :: rest =>
    match hs : reader.state with
    | .tag =>
      if byte ≠ kField1LengthDelimited then (.error unexpectedField, reader, s)
      else feed onEntry
        { state := .length, length := 0, lengthBytes := 0, body := reader.body } s rest
    | .length =>
      match addVarint32Byte byte reader.length reader.lengthBytes "element" with
      | .error e => (.error e, reader, s)
      | .ok (done, length, lengthBytes) =>
        let reader := { state := .length, length, lengthBytes, body := reader.body }
        if ¬ done then feed onEntry reader s rest
        else if htoo : length > kMaxElementBytes then (.error (tooLong length), reader, s)
        else if hzero : length = 0 then
          let reader := { state := .tag, length, lengthBytes, body := [] }
          match onEntry [] s with
          | (.error e, s) => (.error e, reader, s)
          | (.ok, s) => feed onEntry reader s rest
        else
          let reader := {
            state := .body, length, lengthBytes, body := []
            inside := fun _ => ⟨Nat.pos_of_ne_zero hzero, Nat.le_of_not_lt htoo⟩ }
          feed onEntry reader s rest
    | .body =>
      let wanted := reader.length - reader.body.length
      let available := (byte :: rest).length
      if reader.body = [] ∧ available ≥ wanted then
        -- the whole element is in this window
        let reader :=
          { state := .tag, length := reader.length, lengthBytes := reader.lengthBytes,
            body := reader.body }
        match onEntry ((byte :: rest).take wanted) s with
        | (.error e, s) => (.error e, reader, s)
        | (.ok, s) => feed onEntry reader s ((byte :: rest).drop wanted)
      else
        let take := min wanted available
        let body := reader.body ++ (byte :: rest).take take
        if hlen : body.length = reader.length then
          let reader :=
            { state := .tag, length := reader.length, lengthBytes := reader.lengthBytes, body }
          match onEntry body s with
          | (.error e, s) => (.error e, reader, s)
          | (.ok, s) => feed onEntry reader s ((byte :: rest).drop take)
        else
          let reader := { reader with
            body := body
            inside := fun _ => ⟨by
              have := (reader.inside hs).1
              simp only [body, take, wanted, List.length_append, List.length_take] at hlen ⊢
              omega, (reader.inside hs).2⟩ }
          feed onEntry reader s ((byte :: rest).drop take)
termination_by bytes => bytes.length
decreasing_by
  all_goals simp only [List.length_cons, List.length_drop]
  all_goals try omega
  all_goals
    have := (EntryReader.inside _ hs).1
    omega

def atEntryBoundary (reader : EntryReader) : Bool := reader.state = .tag

end EntryReader
end PrivateSetIntersection
