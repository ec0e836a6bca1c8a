import PrivateSetIntersection.Protocol.Protobuf
import PrivateSetIntersection.Streaming.Matching

/-! The messages the library serializes, as the streamed parser reads them. -/
namespace PrivateSetIntersection
open Library Automaton PsiMatch

section Varint

theorem base128_varint (n : Nat) : base128 (varint n) = n := by
  fun_induction varint n with
  | case1 n hsmall =>
    rw [base128, base128, UInt8.toNat_ofNat']
    omega
  | case2 n hlarge ih =>
    rw [base128, ih, UInt8.toNat_ofNat']
    omega

theorem varint_ne_nil (n : Nat) : varint n ≠ [] := by
  rw [varint]
  split <;> exact nofun

theorem varint_continued (n : Nat) : ∀ byte ∈ (varint n).dropLast, 0x80 ≤ byte := by
  fun_induction varint n with
  | case1 => exact nofun
  | case2 n hlarge ih =>
    rw [List.dropLast_cons_of_ne_nil (varint_ne_nil _)]
    intro byte hbyte
    rcases List.mem_cons.mp hbyte with rfl | hbyte
    · rw [UInt8.le_iff_toNat_le, UInt8.toNat_ofNat']
      show 128 ≤ _
      omega
    · exact ih byte hbyte

theorem varint_last (n : Nat) : ∀ byte ∈ (varint n).getLast?, byte < 0x80 := by
  fun_induction varint n with
  | case1 n hsmall =>
    intro byte hbyte
    obtain rfl : UInt8.ofNat n = byte := by simpa using hbyte
    rw [UInt8.lt_iff_toNat_lt, UInt8.toNat_ofNat']
    show _ < 128
    omega
  | case2 n hlarge ih =>
    intro byte hbyte
    rw [List.getLast?_cons_of_ne_nil (varint_ne_nil _)] at hbyte
    exact ih byte hbyte

theorem length_varint_le (k n : Nat) (h : n < 128 ^ (k + 1)) : (varint n).length ≤ k + 1 := by
  induction k generalizing n with
  | zero =>
    rw [varint, if_pos (by simpa using h)]
    exact Nat.le_refl 1
  | succ k ih =>
    rw [varint]
    split
    · simp
    · rw [List.length_cons]
      refine Nat.succ_le_succ (ih (n / 128) ?_)
      rw [Nat.div_lt_iff_lt_mul (by decide), ← Nat.pow_succ]
      exact h

theorem varint32_varint {n : Nat} (h : n < 2 ^ 32) : Varint32 (varint n) n where
  nonempty := varint_ne_nil n
  atMostFive := length_varint_le 4 n (h.trans (by decide))
  continued := varint_continued n
  last := varint_last n
  value := base128_varint n
  fifth byte hbyte := by
    have hfive := length_varint_le 4 n (h.trans (by decide))
    obtain ⟨hlt, hget⟩ := List.getElem?_eq_some_iff.mp hbyte
    have hdrop : (varint n).drop 4 = [byte] := by
      rw [List.drop_eq_getElem_cons hlt, hget, List.drop_eq_nil_of_le hfive]
    have hsplit : varint n = (varint n).take 4 ++ [byte] := by
      rw [← hdrop, List.take_append_drop]
    have hvalue := base128_varint n
    have hhigh := varint_last n byte (by rw [hsplit]; simp)
    rw [hsplit, base128_concat, List.length_take_of_le (by omega)] at hvalue
    rw [UInt8.lt_iff_toNat_lt] at hhigh
    rw [UInt8.le_iff_toNat_le]
    change byte.toNat < 128 at hhigh
    change byte.toNat ≤ 15
    omega

end Varint

section Messages

theorem entry_field1 {element : Bytes} (h : element.length ≤ kMaxElementBytes) :
    Entry (field1 element) element :=
  .intro (varint32_varint (h.trans_lt (by decide))) h

/-- A serialized list of elements is a concatenation of entries. -/
theorem entries_serializeEntries {elements : List Bytes}
    (h : ∀ element ∈ elements, element.length ≤ kMaxElementBytes) :
    Entries (serializeEntries elements) elements := by
  induction elements with
  | nil => exact .nil
  | cons element elements ih =>
    rw [serializeEntries, List.flatMap_cons]
    exact .cons (entry_field1 (h element (by simp))) (ih fun e he => h e (by simp [he]))

theorem length_serialize_lt {setup : List Bytes} (h : (RawInfo.serializeSetup ⟨setup⟩).length < 2 ^ 32) :
    (serializeEntries setup).length < 2 ^ 32 := by
  rw [RawInfo.serializeSetup, field1, List.length_cons, List.length_append, RawInfo.serialize] at h
  dsimp only at h
  omega

/-- A serialized setup is read whole, by any callback that takes its elements. -/
theorem run_serializeSetup {σ : Type} {onEntry : Bytes → σ → Except Error σ} {s₀ s : σ}
    {setup : List Bytes} (hfits : ∀ element ∈ setup, element.length ≤ kMaxElementBytes)
    (hbytes : (RawInfo.serializeSetup ⟨setup⟩).length < 2 ^ 32)
    (h : run (fun s element => onEntry element s) s₀ setup = .ok s) :
    run (frameByte onEntry) (.tag, s₀) (RawInfo.serializeSetup ⟨setup⟩) = .ok (.done, s) := by
  refine (run_frameByte_iff s₀).mpr ⟨_, _, rfl, varint32_varint (length_serialize_lt hbytes), ?_⟩
  exact run_readByte_iff.mpr ⟨setup, entries_serializeEntries hfits, h⟩

/-- The streamed parser takes a serialized setup exactly if its elements are strictly
ascending, and it takes them. -/
theorem setupGrammar_serializeSetup {setup es : List Bytes}
    (hfits : ∀ element ∈ setup, element.length ≤ kMaxElementBytes)
    (hbytes : (RawInfo.serializeSetup ⟨setup⟩).length < 2 ^ 32) :
    SetupGrammar (RawInfo.serializeSetup ⟨setup⟩) es ↔ es = setup ∧ setup.Pairwise (· < ·) := by
  constructor
  · intro h
    have hread : run (frameByte gather) (.tag, []) (RawInfo.serializeSetup ⟨setup⟩) = .ok (.done, es) := by
      generalize RawInfo.serializeSetup ⟨setup⟩ = bytes at h
      obtain ⟨hlength, hentries, -⟩ := h
      have hbody := run_readByte_iff.mpr ⟨es, hentries, run_gather es⟩
      exact (run_frameByte_iff []).mpr ⟨_, _, rfl, hlength, hbody⟩
    rw [run_serializeSetup hfits hbytes (run_gather setup)] at hread
    cases hread
    exact ⟨rfl, h.ascending⟩
  · rintro ⟨rfl, hascending⟩
    exact .intro (varint32_varint (length_serialize_lt hbytes)) (entries_serializeEntries hfits) hascending

theorem responsePlains_serialize (decrypt : ElementOp) {response : List Bytes}
    (hfits : ∀ element ∈ response, element.length ≤ kMaxElementBytes)
    (hcount : response.length ≤ kMaxElements) :
    responsePlains decrypt (Response.serialize ⟨response⟩) = (response.mapM decrypt).toOption := by
  have hread : run (readByte takeEntry) (.tag, []) (Response.serialize ⟨response⟩) = .ok (.tag, response) :=
    run_readByte_iff.mpr ⟨response, entries_serializeEntries hfits, run_takeEntry_iff.mpr ⟨rfl, hcount⟩⟩
  rw [responsePlains, hread]

end Messages

end PrivateSetIntersection
