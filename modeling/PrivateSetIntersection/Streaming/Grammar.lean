import PrivateSetIntersection.Library.Base128
import PrivateSetIntersection.Streaming.Framing

/-! The byte strings the streamed parser accepts, as a grammar, and that the byte-wise
readers accept these and no others. -/
namespace PrivateSetIntersection
open Library Automaton PsiMatch

/-- One to five base-128 bytes, the fifth within what 32 bits leave of it. -/
structure Varint32 (bytes : Bytes) (value : Nat) : Prop where
  nonempty : bytes ≠ []
  atMostFive : bytes.length ≤ 5
  continued : ∀ byte ∈ bytes.dropLast, 0x80 ≤ byte
  last : ∀ byte ∈ bytes.getLast?, byte < 0x80
  fifth : ∀ byte ∈ bytes[4]?, byte ≤ 0x0F
  value : base128 bytes = value

inductive Entry : Bytes → Bytes → Prop where
  | intro {length element : Bytes} (hlength : Varint32 length element.length)
      (hfits : element.length ≤ kMaxElementBytes) : Entry (0x0A :: (length ++ element)) element

inductive Entries : Bytes → List Bytes → Prop where
  | nil : Entries [] []
  | cons {bytes rest element : Bytes} {elements : List Bytes} (hentry : Entry bytes element)
      (hrest : Entries rest elements) : Entries (bytes ++ rest) (element :: elements)

/-- A whole serialized Raw setup, with its elements in strictly ascending order. -/
inductive SetupGrammar : Bytes → List Bytes → Prop where
  | intro {length body : Bytes} {elements : List Bytes} (hlength : Varint32 length body.length)
      (hbody : Entries body elements) (hascending : elements.Pairwise (· < ·)) :
      SetupGrammar (0x0A :: (length ++ body)) elements

section Varint

structure VarintPrefix (bytes : Bytes) : Prop where
  atMostFour : bytes.length ≤ 4
  continued : ∀ byte ∈ bytes, 0x80 ≤ byte

/-- One byte of a varint: refused as a fifth with more than four bits, otherwise its
group is added, and a clear high bit ends the varint. -/
theorem addVarint32Byte_eq {bytes : Bytes} (h : bytes.length ≤ 4) (byte : UInt8) (what : String) :
    addVarint32Byte byte (base128 bytes) bytes.length what =
      if bytes.length = 4 ∧ ¬ byte < 0x10 then
        .error (invalidArgumentError (what ++ " length does not fit in 32 bits"))
      else .ok (decide (byte < 0x80), base128 (bytes ++ [byte]), (bytes ++ [byte]).length) := by
  rw [addVarint32Byte]
  by_cases hfifth : bytes.length = 4 ∧ ¬ byte < 0x10
  · rw [if_pos hfifth, if_pos ⟨hfifth.1, fun hz => hfifth.2 ((high_nibble_clear byte).mp hz)⟩]
  · have hguard : ¬ (bytes.length = kMaxVarint32Bytes - 1 ∧ byte &&& 0xF0 ≠ 0) := by
      rintro ⟨hfour, hnibble⟩
      exact hfifth ⟨hfour, fun hlt => hnibble ((high_nibble_clear byte).mpr hlt)⟩
    have hfit : byte.toNat % 128 * 128 ^ bytes.length < 2 ^ 32 := by
      by_cases hfour : bytes.length = 4
      · have hlt : byte < 0x10 := by
          by_contra hge
          exact hfifth ⟨hfour, hge⟩
        rw [UInt8.lt_iff_toNat_lt] at hlt
        have hsmall : byte.toNat < 16 := hlt
        rw [hfour]
        omega
      · have hpow : 128 ^ bytes.length ≤ 128 ^ 3 := Nat.pow_le_pow_right (by decide) (by omega)
        have hgroup : byte.toNat % 128 ≤ 127 := Nat.lt_succ_iff.mp (Nat.mod_lt _ (by decide))
        exact (Nat.mul_le_mul hgroup hpow).trans_lt (by decide)
    have hshift : (byte.toNat % 128) <<< (7 * bytes.length) = byte.toNat % 128 * 128 ^ bytes.length := by
      rw [Nat.shiftLeft_eq, Nat.pow_mul]
    rw [if_neg hguard, if_neg hfifth, low_seven_bits, Nat.mod_eq_of_lt (by rw [hshift]; exact hfit),
      or_shifted_group, base128_concat]
    simp only [high_bit_clear, List.length_append, List.length_singleton]

/-- A byte after an incomplete varint leaves it incomplete or completes it. -/
theorem VarintPrefix.concat {bytes : Bytes} (h : VarintPrefix bytes) {byte : UInt8}
    (hfit : ¬ (bytes.length = 4 ∧ ¬ byte < 0x10)) :
    if byte < 0x80 then Varint32 (bytes ++ [byte]) (base128 (bytes ++ [byte]))
    else VarintPrefix (bytes ++ [byte]) := by
  have hfour := h.atMostFour
  split <;> rename_i hlast
  · refine ⟨by simp, by simp; omega, by simpa using h.continued, by simpa using hlast, ?_, rfl⟩
    intro b hb
    obtain ⟨hlen, rfl⟩ := List.getElem?_eq_some_iff.mp hb
    rw [List.length_append, List.length_singleton] at hlen
    have hlen4 : bytes.length = 4 := by omega
    have hlt : byte < 0x10 := by
      by_contra hge
      exact hfit ⟨hlen4, hge⟩
    rw [List.getElem_append_right (by omega)]
    simp only [List.getElem_singleton]
    rw [UInt8.lt_iff_toNat_lt] at hlt
    rw [UInt8.le_iff_toNat_le]
    exact Nat.lt_succ_iff.mp hlt
  · refine ⟨?_, ?_⟩
    · rw [List.length_append, List.length_singleton]
      by_contra hlong
      refine hfit ⟨by omega, fun hlt => hlast (hlt.trans (by decide))⟩
    · intro b hb
      rcases List.mem_append.mp hb with hb | hb
      · exact h.continued b hb
      · rw [List.mem_singleton.mp hb]
        exact not_lt.mp hlast

theorem Varint32.split {bytes : Bytes} {value : Nat} (h : Varint32 bytes value) :
    ∃ init last, bytes = init ++ [last] ∧ VarintPrefix init ∧ last < 0x80 ∧
      ¬ (init.length = 4 ∧ ¬ last < 0x10) := by
  rcases List.eq_nil_or_concat bytes with rfl | ⟨init, last, rfl⟩
  · exact absurd rfl h.nonempty
  · rw [List.concat_eq_append] at h ⊢
    have hfive := h.atMostFive
    rw [List.length_append, List.length_singleton] at hfive
    refine ⟨init, last, rfl, ⟨by omega, by simpa using h.continued⟩, h.last last (by simp), ?_⟩
    rintro ⟨hfour, hlarge⟩
    have hfifth := h.fifth last (by
      rw [Option.mem_def, List.getElem?_append_right (by omega), hfour]
      rfl)
    rw [UInt8.le_iff_toNat_le] at hfifth
    rw [UInt8.lt_iff_toNat_lt] at hlarge
    exact hlarge (Nat.lt_succ_of_le hfifth)

theorem VarintPrefix.init {bytes : Bytes} {byte : UInt8} (h : VarintPrefix (bytes ++ [byte])) :
    VarintPrefix bytes ∧ 0x80 ≤ byte ∧ bytes.length < 4 := by
  have hlen := h.atMostFour
  rw [List.length_append, List.length_singleton] at hlen
  exact ⟨⟨by omega, fun b hb => h.continued b (by simp [hb])⟩, h.continued byte (by simp), by omega⟩

end Varint

def gather (element : Bytes) (elements : List Bytes) : Except Error (List Bytes) :=
  .ok (elements ++ [element])

section Reading
variable {σ : Type} {onEntry : Bytes → σ → Except Error σ}

/-- What the bytes since the last whole entry say about where the reader stands. -/
inductive Unfinished : Bytes → Reading → Prop where
  | tag : Unfinished [] .tag
  | varint {length : Bytes} (h : VarintPrefix length) :
      Unfinished (0x0A :: length) (.varint (base128 length) length.length)
  | element {length got : Bytes} {size : Nat} (hlength : Varint32 length size)
      (hfits : size ≤ kMaxElementBytes) (hgot : got.length < size) :
      Unfinished (0x0A :: (length ++ got)) (.element size got)

/-- Bytes since the last whole entry, with what the last of them completed. -/
def Grown (bytes : Bytes) (ρ : Reading) : Option Bytes → Prop
  | none => Unfinished bytes ρ
  | some element => Entry bytes element ∧ ρ = .tag

/-- One byte read: the unfinished bytes grow by it, or become an entry. -/
theorem Unfinished.next {bytes : Bytes} {ρ ρ' : Reading} {byte : UInt8} {out : Option Bytes}
    (h : Unfinished bytes ρ) (hnext : ρ.next byte = .ok (ρ', out)) :
    Grown (bytes ++ [byte]) ρ' out := by
  cases h with
  | tag =>
    rw [Reading.next] at hnext
    split at hnext <;> cases hnext
    rename_i hbyte
    rw [not_not] at hbyte
    subst hbyte
    exact @Unfinished.varint [] ⟨by simp, by simp⟩
  | @varint length hprefix =>
    rw [Reading.next, addVarint32Byte_eq hprefix.atMostFour] at hnext
    by_cases hfit : length.length = 4 ∧ ¬ byte < 0x10
    · rw [if_pos hfit] at hnext
      cases hnext
    · rw [if_neg hfit] at hnext
      have hconcat := hprefix.concat hfit
      by_cases hlast : byte < 0x80
      · rw [if_pos hlast] at hconcat
        simp only [hlast, decide_true, not_true_eq_false, if_false] at hnext
        split at hnext
        · cases hnext
        · rename_i htoo
          split at hnext <;> cases hnext
          · rename_i hzero
            rw [hzero] at hconcat
            refine ⟨?_, rfl⟩
            have hentry := @Entry.intro _ [] hconcat (Nat.zero_le _)
            rwa [List.append_nil] at hentry
          · rename_i hzero
            have hunfinished := @Unfinished.element _ [] _ hconcat (not_lt.mp htoo)
              (Nat.pos_of_ne_zero hzero)
            rwa [List.append_nil] at hunfinished
      · rw [if_neg hlast] at hconcat
        simp only [hlast, decide_false, Bool.false_eq_true, not_false_eq_true, if_true] at hnext
        cases hnext
        exact Unfinished.varint hconcat
  | @element length got size hlength hfits hgot =>
    have hbytes : 0x0A :: (length ++ got) ++ [byte] = 0x0A :: (length ++ (got ++ [byte])) := by simp
    rw [Reading.next] at hnext
    rw [hbytes]
    split at hnext <;> cases hnext
    · rename_i hsize
      rw [← hsize] at hlength hfits
      exact ⟨.intro hlength hfits, rfl⟩
    · rename_i hsize
      refine Unfinished.element hlength hfits ?_
      rw [List.length_append, List.length_singleton] at hsize ⊢
      omega

theorem Entries.concat {bytes last element : Bytes} {elements : List Bytes}
    (h : Entries bytes elements) (hlast : Entry last element) :
    Entries (bytes ++ last) (elements ++ [element]) := by
  induction h with
  | nil => simpa using Entries.cons hlast .nil
  | cons hentry _ ih =>
    rw [List.append_assoc, List.cons_append]
    exact .cons hentry ih

/-- Where the reader stands after any bytes it accepts: whole entries, each taken by
the callback, and an unfinished one. -/
theorem run_readByte_standing {s s' : σ} {bytes : Bytes} {ρ : Reading}
    (h : run (readByte onEntry) (.tag, s) bytes = .ok (ρ, s')) :
    ∃ done tail elements, bytes = done ++ tail ∧ Entries done elements ∧ Unfinished tail ρ ∧
      run (fun s element => onEntry element s) s elements = .ok s' := by
  induction bytes using List.reverseRecOn generalizing ρ s' with
  | nil =>
    cases h
    exact ⟨[], [], [], rfl, .nil, .tag, rfl⟩
  | append_singleton bytes byte ih =>
    obtain ⟨⟨ρ₀, s₀⟩, hbytes, hbyte⟩ := (run_concat_eq_ok _).mp h
    obtain ⟨done, tail, elements, rfl, hdone, htail, hrun⟩ := ih hbytes
    cases hnext : ρ₀.next byte with
    | error e =>
      rw [readByte_error hnext] at hbyte
      cases hbyte
    | ok answer =>
      obtain ⟨ρ₁, out⟩ := answer
      have hgrow := htail.next hnext
      cases out with
      | none =>
        rw [readByte_none hnext] at hbyte
        cases hbyte
        exact ⟨done, tail ++ [byte], elements, List.append_assoc _ _ _, hdone, hgrow, hrun⟩
      | some element =>
        obtain ⟨hentry, rfl⟩ := hgrow
        rw [readByte_some hnext] at hbyte
        cases hon : onEntry element s₀ with
        | error e =>
          rw [hon] at hbyte
          cases hbyte
        | ok s₁ =>
          rw [hon] at hbyte
          cases hbyte
          refine ⟨done ++ (tail ++ [byte]), [], elements ++ [element], by simp,
            hdone.concat hentry, .tag, ?_⟩
          rw [run_append_ok _ hrun, run_singleton, hon]

theorem run_varintPrefix {length : Bytes} (h : VarintPrefix length) (s : σ) :
    run (readByte onEntry) (.varint 0 0, s) length =
      .ok (.varint (base128 length) length.length, s) := by
  induction length using List.reverseRecOn with
  | nil => rfl
  | append_singleton length byte ih =>
    obtain ⟨hinit, hbyte, hfour⟩ := h.init
    have hnext : (Reading.varint (base128 length) length.length).next byte =
        .ok (.varint (base128 (length ++ [byte])) (length ++ [byte]).length, none) := by
      rw [Reading.next, addVarint32Byte_eq hinit.atMostFour, if_neg (by omega)]
      simp only [not_lt.mpr hbyte, decide_false, Bool.false_eq_true, not_false_eq_true, if_true]
    rw [run_append_ok _ (ih hinit), run_singleton, readByte_none hnext]

theorem run_elementLength {length : Bytes} {size : Nat} (hlength : Varint32 length size)
    (hfits : size ≤ kMaxElementBytes) (hpos : 0 < size) (s : σ) :
    run (readByte onEntry) (.tag, s) (0x0A :: length) = .ok (.element size [], s) := by
  have hvalue := hlength.value
  obtain ⟨init, last, rfl, hinit, hlast, hfit⟩ := hlength.split
  have htag : Reading.tag.next 0x0A = .ok (.varint 0 0, none) := rfl
  have hnext : (Reading.varint (base128 init) init.length).next last = .ok (.element size [], none) := by
    rw [Reading.next, addVarint32Byte_eq hinit.atMostFour, if_neg hfit, hvalue, decide_eq_true hlast]
    simp only [not_true_eq_false, if_false, if_neg (not_lt.mpr hfits), if_neg hpos.ne']
  rw [run_cons_ok _ (readByte_none htag), run_append_ok _ (run_varintPrefix hinit s), run_singleton]
  exact readByte_none hnext

/-- Reading what is not a whole entry hands nothing over. -/
theorem run_unfinished {tail : Bytes} {ρ : Reading} (h : Unfinished tail ρ) (s : σ) :
    run (readByte onEntry) (.tag, s) tail = .ok (ρ, s) := by
  cases h with
  | tag => rfl
  | varint hprefix =>
    have htag : Reading.tag.next 0x0A = .ok (.varint 0 0, none) := rfl
    rw [run_cons_ok _ (readByte_none htag), run_varintPrefix hprefix]
  | @element length got size hlength hfits hgot =>
    rw [← List.cons_append, run_append_ok _ (run_elementLength hlength hfits (by omega) s),
      run_element_inside _ _ _ _ _ (by rwa [List.length_nil, Nat.zero_add]), List.nil_append]

variable (onEntry)

theorem run_entry {bytes element : Bytes} (h : Entry bytes element) (s : σ) :
    run (readByte onEntry) (.tag, s) bytes =
      match onEntry element s with
      | .error e => .error e
      | .ok s => .ok (.tag, s) := by
  obtain @⟨length, element, hlength, hfits⟩ := h
  by_cases hzero : element = []
  · subst hzero
    have hvalue := hlength.value
    obtain ⟨init, last, rfl, hinit, hlast, hfit⟩ := hlength.split
    have htag : Reading.tag.next 0x0A = .ok (.varint 0 0, none) := rfl
    have hnext : (Reading.varint (base128 init) init.length).next last = .ok (.tag, some []) := by
      rw [Reading.next, addVarint32Byte_eq hinit.atMostFour, if_neg hfit, hvalue, decide_eq_true hlast]
      simp
    rw [List.append_nil, run_cons_ok _ (readByte_none htag), run_append_ok _ (run_varintPrefix hinit s),
      run_singleton]
    refine (readByte_some hnext).trans ?_
    cases onEntry [] s <;> rfl
  · have hpos : 0 < element.length := List.length_pos_iff.mpr hzero
    have hcomplete := run_element_complete onEntry element.length [] element s hpos (Nat.zero_add _)
    rw [List.nil_append] at hcomplete
    rw [← List.cons_append, run_append_ok _ (run_elementLength hlength hfits hpos s)]
    refine hcomplete.trans ?_
    cases onEntry element s <;> rfl

theorem run_entries {bytes : Bytes} {elements : List Bytes} (h : Entries bytes elements) (s : σ) :
    run (readByte onEntry) (.tag, s) bytes =
      match run (fun s element => onEntry element s) s elements with
      | .error e => .error e
      | .ok s => .ok (.tag, s) := by
  induction h generalizing s with
  | nil => rfl
  | @cons bytes rest element elements hentry _ ih =>
    have hhead := run_entry onEntry hentry s
    cases hon : onEntry element s with
    | error e =>
      rw [hon] at hhead
      rw [run_append_error _ hhead, run_cons_error _ hon]
    | ok s' =>
      rw [hon] at hhead
      rw [run_append_ok _ hhead, run_cons_ok _ hon, ih]

variable {onEntry}

/-- The reader stands between entries exactly after a concatenation of entries. -/
theorem run_readByte_iff {s s' : σ} {bytes : Bytes} :
    run (readByte onEntry) (.tag, s) bytes = .ok (.tag, s') ↔
      ∃ elements, Entries bytes elements ∧
        run (fun s element => onEntry element s) s elements = .ok s' := by
  constructor
  · intro h
    obtain ⟨done, tail, elements, rfl, hdone, htail, hrun⟩ := run_readByte_standing h
    cases htail
    rw [List.append_nil]
    exact ⟨elements, hdone, hrun⟩
  · rintro ⟨elements, hentries, hrun⟩
    rw [run_entries onEntry hentries, hrun]

theorem run_gather (elements : List Bytes) :
    run (fun s element => gather element s) [] elements = .ok elements := by
  induction elements using List.reverseRecOn with
  | nil => rfl
  | append_singleton elements element ih => rw [run_append_ok _ ih, run_singleton, gather]

/-- The bytes are the entries of these elements, and an unfinished entry. -/
def Completed (bytes : Bytes) (elements : List Bytes) : Prop :=
  ∃ done tail ρ, bytes = done ++ tail ∧ Entries done elements ∧ Unfinished tail ρ

theorem Completed.unique {bytes : Bytes} {es es' : List Bytes} (h : Completed bytes es)
    (h' : Completed bytes es') : es = es' := by
  have hread {elements : List Bytes} (h : Completed bytes elements) :
      ∃ ρ, run (readByte gather) (.tag, []) bytes = .ok (ρ, elements) := by
    obtain ⟨done, tail, ρ, rfl, hdone, htail⟩ := h
    have hgather := run_readByte_iff.mpr ⟨elements, hdone, run_gather elements⟩
    exact ⟨ρ, by rw [run_append_ok _ hgather, run_unfinished htail]⟩
  obtain ⟨ρ, hρ⟩ := hread h
  obtain ⟨ρ', hρ'⟩ := hread h'
  rw [hρ] at hρ'
  cases hρ'
  rfl

end Reading

section Ascending

/-- The store takes a list of elements exactly if they are strictly ascending. -/
theorem run_collect_iff {elements es : List Bytes} (h : elements.length ≤ kMaxElements) :
    run (fun es element => collect element es) [] elements = .ok es ↔
      es = elements ∧ elements.Pairwise (· < ·) := by
  induction elements using List.reverseRecOn generalizing es with
  | nil =>
    rw [run_nil]
    exact ⟨fun h => by cases h; exact ⟨rfl, .nil⟩, fun h => by rw [h.1]⟩
  | append_singleton elements element ih =>
    rw [List.length_append, List.length_singleton] at h
    rw [run_concat_eq_ok]
    constructor
    · rintro ⟨before, hrun, hcollect⟩
      obtain ⟨rfl, hascending⟩ := (ih (by omega)).mp hrun
      rw [collect, if_neg (by omega)] at hcollect
      split at hcollect <;> cases hcollect
      rename_i horder
      exact ⟨rfl, (pairwise_concat_iff hascending element).mpr horder⟩
    · rintro ⟨rfl, hascending⟩
      have hbefore : elements.Pairwise (· < ·) := (List.pairwise_append.mp hascending).1
      refine ⟨elements, (ih (by omega)).mpr ⟨rfl, hbefore⟩, ?_⟩
      rw [collect, if_neg (by omega), if_neg ((pairwise_concat_iff hbefore element).mp hascending)]

/-- Every entry has a tag and a length. -/
theorem Entries.length_le {bytes : Bytes} {elements : List Bytes} (h : Entries bytes elements) :
    2 * elements.length ≤ bytes.length := by
  induction h with
  | nil => exact Nat.le_refl 0
  | cons hentry _ ih =>
    obtain ⟨hlength, -⟩ := hentry
    have hpos := List.length_pos_iff.mpr hlength.nonempty
    simp only [List.length_cons, List.length_append]
    omega

theorem Varint32.value_lt {bytes : Bytes} {value : Nat} (h : Varint32 bytes value) :
    value < 2 ^ 32 := by
  rw [← h.value]
  obtain ⟨init, last, rfl, hinit, -, hfit⟩ := h.split
  have hlow := base128_lt init
  have hgroup : last.toNat % 128 ≤ 127 := Nat.lt_succ_iff.mp (Nat.mod_lt _ (by decide))
  rw [base128_concat]
  by_cases hfour : init.length = 4
  · have hlt : last < 0x10 := by
      by_contra hge
      exact hfit ⟨hfour, hge⟩
    rw [UInt8.lt_iff_toNat_lt] at hlt
    have hsmall : last.toNat < 16 := hlt
    rw [hfour] at hlow ⊢
    omega
  · have hpow : 128 ^ init.length ≤ 128 ^ 3 :=
      Nat.pow_le_pow_right (by decide) (by have := hinit.atMostFour; omega)
    have hhigh := Nat.mul_le_mul hpow hgroup
    omega

/-- The body of a setup goes to the store exactly if its elements ascend. -/
theorem run_collect_body_iff {body : Bytes} {es : List Bytes} (h : body.length < 2 ^ 32) :
    run (readByte collect) (.tag, []) body = .ok (.tag, es) ↔
      Entries body es ∧ es.Pairwise (· < ·) := by
  have hbound {elements : List Bytes} (hentries : Entries body elements) :
      elements.length ≤ kMaxElements := by
    have := hentries.length_le
    rw [kMaxElements]
    omega
  rw [run_readByte_iff]
  constructor
  · rintro ⟨elements, hentries, hrun⟩
    obtain ⟨rfl, hascending⟩ := (run_collect_iff (hbound hentries)).mp hrun
    exact ⟨hentries, hascending⟩
  · rintro ⟨hentries, hascending⟩
    exact ⟨es, hentries, (run_collect_iff (hbound hentries)).mpr ⟨rfl, hascending⟩⟩

end Ascending

section Setup
variable {σ : Type} {onEntry : Bytes → σ → Except Error σ} (s₀ : σ)

/-- What the bytes so far say about where the setup's framing stands. -/
inductive FrameStanding (onEntry : Bytes → σ → Except Error σ) (s₀ : σ) :
    Bytes → Framing × σ → Prop where
  | tag : FrameStanding onEntry s₀ [] (.tag, s₀)
  | varint {length : Bytes} (h : VarintPrefix length) :
      FrameStanding onEntry s₀ (0x0A :: length) (.varint (base128 length) length.length, s₀)
  | body {length body : Bytes} {remaining : Nat} {ρ : Reading} {s : σ}
      (hlength : Varint32 length (body.length + remaining)) (hpos : 0 < remaining)
      (hbody : run (readByte onEntry) (.tag, s₀) body = .ok (ρ, s)) :
      FrameStanding onEntry s₀ (0x0A :: (length ++ body)) (.body remaining ρ, s)
  | done {length body : Bytes} {s : σ} (hlength : Varint32 length body.length)
      (hbody : run (readByte onEntry) (.tag, s₀) body = .ok (.tag, s)) :
      FrameStanding onEntry s₀ (0x0A :: (length ++ body)) (.done, s)

/-- One more byte of the length: the length goes on, or the body begins, if it has one. -/
private theorem FrameStanding.varint_step {length : Bytes} {next : Framing × σ} {byte : UInt8}
    (h : VarintPrefix length)
    (hbyte : frameByte onEntry (.varint (base128 length) length.length, s₀) byte = .ok next) :
    FrameStanding onEntry s₀ (0x0A :: (length ++ [byte])) next := by
  simp only [frameByte, addVarint32Byte_eq h.atMostFour] at hbyte
  by_cases hfit : length.length = 4 ∧ ¬ byte < 0x10
  · rw [if_pos hfit] at hbyte
    cases hbyte
  · rw [if_neg hfit] at hbyte
    have hconcat := h.concat hfit
    by_cases hlast : byte < 0x80
    · rw [if_pos hlast] at hconcat
      simp only [hlast, decide_true, not_true_eq_false, if_false] at hbyte
      cases hbyte
      by_cases hzero : base128 (length ++ [byte]) = 0
      · rw [if_pos hzero]
        rw [hzero] at hconcat
        have hdone := @FrameStanding.done σ onEntry s₀ _ [] _ hconcat rfl
        rwa [List.append_nil] at hdone
      · rw [if_neg hzero]
        have hbody := @FrameStanding.body σ onEntry s₀ _ [] (base128 (length ++ [byte]))
          .tag s₀ (by rwa [List.length_nil, Nat.zero_add])
          (Nat.pos_of_ne_zero hzero) rfl
        rwa [List.append_nil] at hbody
    · rw [if_neg hlast] at hconcat
      simp only [hlast, decide_false, Bool.false_eq_true, not_false_eq_true, if_true] at hbyte
      cases hbyte
      exact FrameStanding.varint hconcat

/-- One more byte of the body, which the entry reader takes. -/
private theorem FrameStanding.body_step {length body : Bytes} {remaining : Nat} {ρ : Reading} {s : σ}
    {next : Framing × σ} {byte : UInt8} (hlength : Varint32 length (body.length + remaining))
    (hpos : 0 < remaining) (hbody : run (readByte onEntry) (.tag, s₀) body = .ok (ρ, s))
    (hbyte : frameByte onEntry (.body remaining ρ, s) byte = .ok next) :
    FrameStanding onEntry s₀ (0x0A :: (length ++ (body ++ [byte]))) next := by
  have hgrowth : body.length + remaining = (body ++ [byte]).length + (remaining - 1) := by
    rw [List.length_append, List.length_singleton]
    omega
  rw [hgrowth] at hlength
  simp only [frameByte] at hbyte
  cases hread : readByte onEntry (ρ, s) byte with
  | error e =>
    rw [hread] at hbyte
    cases hbyte
  | ok answer =>
    obtain ⟨ρ', s'⟩ := answer
    have hgrown : run (readByte onEntry) (.tag, s₀) (body ++ [byte]) = .ok (ρ', s') := by
      rw [run_append_ok _ hbody, run_singleton, hread]
    rw [hread] at hbyte
    dsimp only at hbyte
    by_cases hall : remaining - 1 = 0
    · rw [if_pos hall] at hbyte
      split at hbyte <;> cases hbyte
      rename_i htag
      subst htag
      rw [hall, Nat.add_zero] at hlength
      exact FrameStanding.done hlength hgrown
    · rw [if_neg hall] at hbyte
      cases hbyte
      exact FrameStanding.body hlength (Nat.pos_of_ne_zero hall) hgrown

private theorem FrameStanding.step {bytes : Bytes} {state next : Framing × σ} {byte : UInt8}
    (h : FrameStanding onEntry s₀ bytes state) (hbyte : frameByte onEntry state byte = .ok next) :
    FrameStanding onEntry s₀ (bytes ++ [byte]) next := by
  cases h with
  | tag =>
    simp only [frameByte] at hbyte
    split at hbyte <;> cases hbyte
    rename_i htag
    rw [not_not] at htag
    subst htag
    exact @FrameStanding.varint σ onEntry s₀ [] ⟨by simp, by simp⟩
  | varint hprefix => exact FrameStanding.varint_step s₀ hprefix hbyte
  | body hlength hpos hbody =>
    rw [List.cons_append, List.append_assoc]
    exact FrameStanding.body_step s₀ hlength hpos hbody hbyte
  | done =>
    simp only [frameByte] at hbyte
    cases hbyte

private theorem run_frameByte_standing {bytes : Bytes} {state : Framing × σ}
    (h : run (frameByte onEntry) (.tag, s₀) bytes = .ok state) :
    FrameStanding onEntry s₀ bytes state := by
  induction bytes using List.reverseRecOn generalizing state with
  | nil =>
    cases h
    exact .tag
  | append_singleton bytes byte ih =>
    obtain ⟨before, hbytes, hbyte⟩ := (run_concat_eq_ok _).mp h
    exact (ih hbytes).step s₀ hbyte

private theorem run_frameByte_varintPrefix {length : Bytes} (h : VarintPrefix length) (s : σ) :
    run (frameByte onEntry) (.varint 0 0, s) length =
      .ok (.varint (base128 length) length.length, s) := by
  induction length using List.reverseRecOn with
  | nil => rfl
  | append_singleton length byte ih =>
    obtain ⟨hinit, hbyte, hfour⟩ := h.init
    rw [run_append_ok _ (ih hinit), run_singleton]
    simp only [frameByte]
    rw [addVarint32Byte_eq hinit.atMostFour, if_neg (by omega)]
    simp only [not_lt.mpr hbyte, decide_false, Bool.false_eq_true, not_false_eq_true, if_true]

/-- The framing is done exactly after a tag, a length, and a body of that length which
leaves the reader between entries. -/
theorem run_frameByte_iff {bytes : Bytes} {s : σ} :
    run (frameByte onEntry) (.tag, s₀) bytes = .ok (.done, s) ↔
      ∃ length body, bytes = 0x0A :: (length ++ body) ∧ Varint32 length body.length ∧
        run (readByte onEntry) (.tag, s₀) body = .ok (.tag, s) := by
  constructor
  · intro h
    cases run_frameByte_standing s₀ h with
    | done hlength hbody => exact ⟨_, _, rfl, hlength, hbody⟩
  · rintro ⟨length, body, rfl, hlength, hbody⟩
    have hvalue := hlength.value
    obtain ⟨init, last, rfl, hinit, hlast, hfit⟩ := hlength.split
    have htag : frameByte onEntry (.tag, s₀) 0x0A = .ok (.varint 0 0, s₀) := rfl
    have hbytes : init ++ [last] ++ body = init ++ (last :: body) := by simp
    have hdone : frameByte onEntry (.varint (base128 init) init.length, s₀) last =
        .ok (if body.length = 0 then .done else .body body.length .tag, s₀) := by
      simp only [frameByte, addVarint32Byte_eq hinit.atMostFour, if_neg hfit, hvalue,
        decide_eq_true hlast, not_true_eq_false, if_false]
    rw [run_cons_ok _ htag, hbytes, run_append_ok _ (run_frameByte_varintPrefix hinit s₀),
      run_cons_ok _ hdone]
    by_cases hzero : body.length = 0
    · rw [if_pos hzero]
      obtain rfl := List.length_eq_zero_iff.mp hzero
      cases hbody
      rfl
    · rw [if_neg hzero, run_body_complete _ _ _ _ _ (Nat.pos_of_ne_zero hzero) rfl, hbody]
      simp only [if_true]

/-- The byte-wise reading of a setup accepts the grammar and nothing else. -/
theorem run_collect_setup_iff {bytes : Bytes} {es : List Bytes} :
    run (frameByte collect) (.tag, []) bytes = .ok (.done, es) ↔ SetupGrammar bytes es := by
  rw [run_frameByte_iff]
  constructor
  · rintro ⟨length, body, rfl, hlength, hbody⟩
    obtain ⟨hentries, hascending⟩ := (run_collect_body_iff hlength.value_lt).mp hbody
    exact .intro hlength hentries hascending
  · rintro ⟨hlength, hentries, hascending⟩
    exact ⟨_, _, rfl, hlength, (run_collect_body_iff hlength.value_lt).mpr ⟨hentries, hascending⟩⟩

theorem SetupGrammar.ascending {bytes : Bytes} {es : List Bytes} (h : SetupGrammar bytes es) :
    es.Pairwise (· < ·) := by
  obtain ⟨-, -, hascending⟩ := h
  exact hascending

/-- No more entries than the length field has room for. -/
theorem SetupGrammar.length_le {bytes : Bytes} {es : List Bytes} (h : SetupGrammar bytes es) :
    es.length ≤ 2 ^ 32 := by
  obtain ⟨hlength, hentries, -⟩ := h
  have hbody := hlength.value_lt
  have hcount := hentries.length_le
  omega

end Setup

end PrivateSetIntersection
