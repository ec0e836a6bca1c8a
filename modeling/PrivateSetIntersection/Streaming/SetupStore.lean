import PrivateSetIntersection.Streaming.PsiMatch

/-! The setup elements in their blocks of slots: `CompareElements` is the order of byte
strings, and an accepted element is read back from its slot ever after. -/
namespace PrivateSetIntersection
open Library

section Compare

theorem compareElements_cons (x y : UInt8) (xs ys : Bytes) :
    compareElements (x :: xs) (y :: ys) =
      if x = y then compareElements xs ys else (x.toNat : Int) - y.toNat := by
  simp only [compareElements, List.length_cons, Nat.add_min_add_right, List.take_succ_cons, memcmp,
    Nat.succ_pos, true_and, Nat.add_right_cancel_iff, Nat.add_lt_add_iff_right]
  by_cases hxy : x = y
  · simp only [if_pos hxy]
    by_cases hcommon : 0 < min xs.length ys.length
    · simp only [gt_iff_lt, hcommon, true_and]
    · have hzero : min xs.length ys.length = 0 := Nat.eq_zero_of_not_pos hcommon
      simp [hzero, memcmp]
  · have hne : (x.toNat : Int) - y.toNat ≠ 0 := by
      intro h
      exact hxy (UInt8.toNat_inj.mp (by omega))
    simp only [if_neg hxy, if_pos hne]

/-- `CompareElements` decides equality and the order of byte strings. -/
theorem compareElements_spec (a b : Bytes) :
    (compareElements a b = 0 ↔ a = b) ∧ (compareElements a b < 0 ↔ a < b) := by
  induction a generalizing b with
  | nil =>
    cases b with
    | nil => simp [compareElements]
    | cons y ys => simp [compareElements]
  | cons x xs ih =>
    cases b with
    | nil => simp [compareElements]
    | cons y ys =>
      rw [compareElements_cons, List.cons_lt_cons_iff]
      by_cases hxy : x = y
      · subst hxy
        simpa using ih ys
      · have hne : x.toNat ≠ y.toNat := fun h => hxy (UInt8.toNat_inj.mp h)
        rw [if_neg hxy]
        refine ⟨⟨fun h => by omega, fun h => absurd (List.cons.inj h).1 hxy⟩, ?_⟩
        rw [UInt8.lt_iff_toNat_lt]
        refine ⟨fun h => Or.inl (by omega), fun h => ?_⟩
        rcases h with h | ⟨h, _⟩
        · omega
        · exact absurd h hxy

theorem compareElements_eq_zero {a b : Bytes} : compareElements a b = 0 ↔ a = b :=
  (compareElements_spec a b).1

theorem compareElements_neg {a b : Bytes} : compareElements a b < 0 ↔ a < b :=
  (compareElements_spec a b).2

theorem compareElements_nonneg {a b : Bytes} : compareElements a b ≥ 0 ↔ b ≤ a := by
  rw [ge_iff_le, ← not_lt, compareElements_neg, not_lt]

end Compare

namespace PsiMatch

section Memory

theorem length_writeBytes {block data : Bytes} {offset : Nat}
    (h : offset + data.length ≤ block.length) : (writeBytes block offset data).length = block.length := by
  simp only [writeBytes, List.length_append, List.length_take, List.length_drop]
  omega

theorem readBytes_writeBytes {block data : Bytes} {offset : Nat} (h : offset ≤ block.length) :
    readBytes (writeBytes block offset data) offset data.length = data := by
  have hlen : (block.take offset).length = offset := List.length_take_of_le h
  rw [readBytes, writeBytes, List.append_assoc, List.drop_append_of_le_length (by omega),
    List.drop_eq_nil_of_le (by omega), List.nil_append, List.take_left]

/-- A write leaves what lies wholly before it or wholly after it. -/
theorem readBytes_writeBytes_of_disjoint {block data : Bytes} {offset start n : Nat}
    (h : offset + data.length ≤ block.length)
    (hout : start + n ≤ offset ∨ offset + data.length ≤ start) :
    readBytes (writeBytes block offset data) start n = readBytes block start n := by
  have hlen := length_writeBytes h
  apply List.ext_getElem
  · simp only [readBytes, List.length_take, List.length_drop, hlen]
  · intro i hi _
    simp only [readBytes, List.length_take, List.length_drop, lt_min_iff] at hi
    simp only [readBytes, List.getElem_take, List.getElem_drop, writeBytes]
    rcases hout with hout | hout
    · rw [List.getElem_append_left (by simp; omega), List.getElem_append_left (by simp; omega),
        List.getElem_take]
    · rw [List.getElem_append_right (by simp; omega), List.getElem_drop]
      congr 1
      simp only [List.length_append, List.length_take]
      omega

theorem writeBytes_adjacent {block first second : Bytes} {offset : Nat}
    (h : offset + first.length ≤ block.length) :
    writeBytes (writeBytes block offset first) (offset + first.length) second =
      writeBytes block offset (first ++ second) := by
  have htake : (block.take offset ++ first).length = offset + first.length := by
    rw [List.length_append, List.length_take_of_le (by omega)]
  have hdrop : (block.take offset ++ first ++ block.drop (offset + first.length)).drop
      (offset + first.length + second.length) = block.drop (offset + (first ++ second).length) := by
    rw [List.drop_append, List.drop_eq_nil_of_le (by omega), List.nil_append, List.drop_drop]
    congr 1
    simp only [List.length_append] at htake ⊢
    omega
  rw [writeBytes, writeBytes, hdrop, ← htake, List.take_left, writeBytes]
  simp only [List.append_assoc]

end Memory

section Slots

theorem kBlockSlots_eq : kBlockSlots = 65536 := rfl
theorem kSlotBytes_eq : kSlotBytes = 34 := rfl

theorem shiftRight_block (index : Nat) : index >>> kBlockSlotsLog2 = index / kBlockSlots :=
  Nat.shiftRight_eq_div_pow index 16

theorem slotOffset_eq (index : Nat) : slotOffset index = index % kBlockSlots * kSlotBytes := by
  rw [slotOffset, kBlockSlots_eq]
  exact congrArg (· * kSlotBytes) (Nat.and_two_pow_sub_one_eq_mod index 16)

theorem slotOffset_le (index : Nat) : slotOffset index + kSlotBytes ≤ kBlockSlots * kSlotBytes := by
  rw [slotOffset_eq, kBlockSlots_eq, kSlotBytes_eq]
  have := Nat.mod_lt index (y := 65536) (by decide)
  omega

theorem slotOffset_disjoint {i j : Nat} (hblock : i / kBlockSlots = j / kBlockSlots) (hij : i < j) :
    slotOffset i + kSlotBytes ≤ slotOffset j := by
  rw [slotOffset_eq, slotOffset_eq, kSlotBytes_eq]
  rw [kBlockSlots_eq] at hblock ⊢
  omega

/-- What the slot of an element holds: its length, then the element. -/
def slotContents (element : Bytes) : Bytes := UInt8.ofNat element.length :: element

@[simp] theorem length_slotContents (element : Bytes) :
    (slotContents element).length = element.length + 1 := rfl

theorem slotContents_inside (k : Nat) {element block : Bytes} (hfits : element.length ≤ kMaxElementBytes)
    (hsize : block.length = kBlockSlots * kSlotBytes) :
    slotOffset k + (slotContents element).length ≤ block.length := by
  have hroom := slotOffset_le k
  rw [kMaxElementBytes] at hfits
  rw [length_slotContents, hsize]
  rw [kSlotBytes_eq] at hroom ⊢
  omega

/-- The object's blocks hold the elements `es`, in order. -/
structure Stores (m : PsiMatch) (es : List Bytes) : Prop where
  count : m.setupCount = es.length
  blocks : m.setupBlocks.length = (es.length + (kBlockSlots - 1)) / kBlockSlots
  size : ∀ block ∈ m.setupBlocks, block.length = kBlockSlots * kSlotBytes
  fits : ∀ e ∈ es, e.length ≤ kMaxElementBytes
  slot : ∀ k (h : k < es.length),
    readBytes (m.setupBlocks.getD (k / kBlockSlots) []) (slotOffset k) (es[k].length + 1) =
      slotContents es[k]

theorem Stores.empty {m : PsiMatch} (hcount : m.setupCount = 0) (hblocks : m.setupBlocks = []) :
    Stores m [] where
  count := hcount
  blocks := by rw [hblocks]; rfl
  size := by simp [hblocks]
  fits := by simp
  slot := by simp

theorem Stores.slot_parts {m : PsiMatch} {es : List Bytes} (h : Stores m es) {k : Nat}
    (hk : k < es.length) :
    ((m.setupBlocks.getD (k / kBlockSlots) []).getD (slotOffset k) 0).toNat = es[k].length ∧
      readBytes (m.setupBlocks.getD (k / kBlockSlots) []) (slotOffset k + 1) es[k].length = es[k] := by
  have hslot := h.slot k hk
  have hfits := h.fits es[k] (List.getElem_mem hk)
  rw [kMaxElementBytes] at hfits
  generalize m.setupBlocks.getD (k / kBlockSlots) [] = block at hslot
  have hbound : slotOffset k < block.length := by
    have hlen := congrArg List.length hslot
    simp only [readBytes, List.length_take, List.length_drop, length_slotContents] at hlen
    omega
  rw [readBytes, List.drop_eq_getElem_cons hbound, List.take_succ_cons, slotContents] at hslot
  obtain ⟨hhead, htail⟩ := List.cons.inj hslot
  refine ⟨?_, htail⟩
  rw [List.getD_eq_getElem _ _ hbound, hhead, UInt8.toNat_ofNat']
  omega

theorem Stores.setupElement {m : PsiMatch} {es : List Bytes} (h : Stores m es) {k : Nat}
    (hk : k < es.length) : m.setupElement k = es[k] := by
  obtain ⟨hlength, helement⟩ := h.slot_parts hk
  rw [PsiMatch.setupElement, shiftRight_block]
  simp only [hlength]
  exact helement

end Slots

section Add

/-- What the element list becomes, or the refusal of `AddSetupElement`. -/
def collect (element : Bytes) (es : List Bytes) : Except Error (List Bytes) :=
  if es.length ≥ kMaxElements then .error tooManySetupElements
  else if ∃ last ∈ es.getLast?, element ≤ last then .error notAscending
  else .ok (es ++ [element])

/-- An element goes after ascending ones exactly if it is above the last of them. -/
theorem pairwise_concat_iff {elements : List Bytes} (h : elements.Pairwise (· < ·))
    (element : Bytes) :
    (elements ++ [element]).Pairwise (· < ·) ↔ ¬ ∃ last ∈ elements.getLast?, element ≤ last := by
  rw [List.pairwise_append]
  rcases List.eq_nil_or_concat elements with rfl | ⟨init, last, rfl⟩
  · simp
  · rw [List.concat_eq_append] at h ⊢
    rw [List.pairwise_append] at h
    simp only [List.getLast?_append, List.getLast?_singleton, Option.some_or, Option.mem_def,
      Option.some.injEq, exists_eq_left', not_le]
    constructor
    · rintro ⟨-, -, hall⟩
      exact hall last (by simp) element (by simp)
    · intro hlast
      refine ⟨List.pairwise_append.mpr h, List.pairwise_singleton _ _, ?_⟩
      intro a ha b hb
      rw [List.mem_singleton.mp hb]
      rcases List.mem_append.mp ha with ha | ha
      · exact (h.2.2 a ha last (by simp)).trans hlast
      · rwa [List.mem_singleton.mp ha]

theorem getD_modify (blocks : List Bytes) (f : Bytes → Bytes) {b : Nat} (hb : b < blocks.length)
    (i : Nat) : (blocks.modify b f).getD i [] = if b = i then f (blocks.getD i []) else blocks.getD i [] := by
  simp only [List.getD_eq_getElem?_getD, List.getElem?_modify]
  by_cases hi : b = i
  · subst hi
    simp [List.getElem?_eq_getElem hb]
  · simp [hi]

private theorem modify_congr {blocks : List Bytes} {f g : Bytes → Bytes} (i : Nat)
    (h : ∀ block ∈ blocks, f block = g block) : blocks.modify i f = blocks.modify i g := by
  apply List.ext_getElem
  · simp
  · intro k hk _
    rw [List.length_modify] at hk
    simp only [List.getElem_modify, h _ (List.getElem_mem hk)]

/-- An element written to the next slot is stored, and so is every earlier one still. -/
private theorem stores_append {m : PsiMatch} {es : List Bytes} (h : Stores m es) {element : Bytes}
    (hfits : element.length ≤ kMaxElementBytes) {blocks : List Bytes}
    (hlen : blocks.length = (es.length + 1 + (kBlockSlots - 1)) / kBlockSlots)
    (hsize : ∀ block ∈ blocks, block.length = kBlockSlots * kSlotBytes)
    (hold : ∀ k, k < m.setupBlocks.length → blocks.getD k [] = m.setupBlocks.getD k []) :
    Stores { m with
      setupBlocks := blocks.modify (es.length / kBlockSlots)
        (fun memory => writeBytes memory (slotOffset es.length) (slotContents element))
      setupCount := es.length + 1 } (es ++ [element]) := by
  have hb : es.length / kBlockSlots < blocks.length := by
    rw [hlen, kBlockSlots_eq]
    omega
  have hblock : ∀ block ∈ blocks, slotOffset es.length + (slotContents element).length ≤ block.length :=
    fun block hmem => slotContents_inside es.length hfits (hsize block hmem)
  have hcurrent : blocks.getD (es.length / kBlockSlots) [] ∈ blocks := by
    rw [List.getD_eq_getElem _ _ hb]
    exact List.getElem_mem hb
  refine ⟨by simp, by simp [hlen], ?_, ?_, ?_⟩
  · intro block hmem
    obtain ⟨i, hi, rfl⟩ := List.getElem_of_mem hmem
    rw [List.length_modify] at hi
    rw [List.getElem_modify]
    split
    · rw [length_writeBytes (hblock _ (List.getElem_mem hi))]
      exact hsize _ (List.getElem_mem hi)
    · exact hsize _ (List.getElem_mem hi)
  · intro e he
    rcases List.mem_append.mp he with he | he
    · exact h.fits e he
    · rw [List.mem_singleton.mp he]
      exact hfits
  · intro k hk
    rw [List.length_append, List.length_singleton] at hk
    dsimp only
    rw [getD_modify blocks _ hb]
    by_cases hkn : k = es.length
    · subst hkn
      rw [if_pos rfl, List.getElem_append_right (le_refl _)]
      simp only [Nat.sub_self, List.getElem_singleton]
      exact readBytes_writeBytes (by have := hblock _ hcurrent; omega)
    · have hlt : k < es.length := by omega
      rw [List.getElem_append_left hlt]
      have hkeep : blocks.getD (k / kBlockSlots) [] = m.setupBlocks.getD (k / kBlockSlots) [] := by
        apply hold
        rw [h.blocks, kBlockSlots_eq]
        omega
      have hfit := h.fits es[k] (List.getElem_mem hlt)
      rw [kMaxElementBytes] at hfit
      split
      · rename_i hsame
        have hapart := slotOffset_disjoint hsame.symm hlt
        rw [kSlotBytes_eq] at hapart
        rw [readBytes_writeBytes_of_disjoint _ (Or.inl (by omega)), hkeep]
        · exact h.slot k hlt
        · rw [← hsame]
          exact hblock _ hcurrent
      · rw [hkeep]
        exact h.slot k hlt

private theorem order_check_iff {m : PsiMatch} {es : List Bytes} (h : Stores m es) (element : Bytes) :
    (m.setupCount > 0 ∧ compareElements (m.setupElement (m.setupCount - 1)) element ≥ 0) ↔
      ∃ last ∈ es.getLast?, element ≤ last := by
  rw [compareElements_nonneg, h.count, List.getLast?_eq_getElem?]
  constructor
  · rintro ⟨hpos, hle⟩
    rw [h.setupElement (by omega)] at hle
    exact ⟨_, List.getElem?_eq_getElem (by omega), hle⟩
  · rintro ⟨last, hlast, hle⟩
    obtain ⟨hk, rfl⟩ := List.getElem?_eq_some_iff.mp hlast
    refine ⟨by omega, ?_⟩
    rw [h.setupElement hk]
    exact hle

/-- The blocks `AddSetupElement` writes to, the fresh one included. -/
def blocksToWrite (m : PsiMatch) : List Bytes :=
  if m.setupCount >>> kBlockSlotsLog2 = m.setupBlocks.length then
    m.setupBlocks ++ [List.replicate (kBlockSlots * kSlotBytes) 0]
  else m.setupBlocks

/-- The blocks an element is written to: one more of them where the last is full. -/
theorem Stores.blocksToWrite {m : PsiMatch} {es : List Bytes} (h : Stores m es) :
    m.blocksToWrite.length = (es.length + 1 + (kBlockSlots - 1)) / kBlockSlots ∧
      (∀ block ∈ m.blocksToWrite, block.length = kBlockSlots * kSlotBytes) ∧
      ∀ k, k < m.setupBlocks.length → m.blocksToWrite.getD k [] = m.setupBlocks.getD k [] := by
  have hblocks := h.blocks
  rw [kBlockSlots_eq] at hblocks
  rw [PsiMatch.blocksToWrite, h.count, shiftRight_block]
  split <;> rename_i hfull
  · rw [kBlockSlots_eq] at hfull
    refine ⟨?_, ?_, ?_⟩
    · rw [List.length_append, List.length_singleton, kBlockSlots_eq]
      omega
    · intro block hmem
      rcases List.mem_append.mp hmem with hmem | hmem
      · exact h.size block hmem
      · rw [List.mem_singleton.mp hmem, List.length_replicate]
    · intro k hk
      rw [List.getD_append _ _ _ _ hk]
  · rw [kBlockSlots_eq] at hfull
    refine ⟨?_, h.size, fun _ _ => rfl⟩
    rw [kBlockSlots_eq]
    omega

/-- The two writes of `AddSetupElement` are one write to the next slot. -/
theorem Stores.addSetupElement_eq {m : PsiMatch} {es : List Bytes} (h : Stores m es) {element : Bytes}
    (hfits : element.length ≤ kMaxElementBytes) : m.addSetupElement element =
      if m.setupCount ≥ kMaxElements then (.error tooManySetupElements, m)
      else if m.setupCount > 0 ∧ compareElements (m.setupElement (m.setupCount - 1)) element ≥ 0 then
        (.error notAscending, m)
      else (.ok, { m with
        setupBlocks := m.blocksToWrite.modify (m.setupCount >>> kBlockSlotsLog2)
          (fun memory => writeBytes memory (slotOffset m.setupCount) (slotContents element))
        setupCount := m.setupCount + 1 }) := by
  have hwrite := modify_congr (m.setupCount >>> kBlockSlotsLog2)
    (f := fun memory => writeBytes (writeBytes memory (slotOffset m.setupCount)
      [UInt8.ofNat element.length]) (slotOffset m.setupCount + 1) element)
    (g := fun memory => writeBytes memory (slotOffset m.setupCount) (slotContents element))
    (fun block hmem => writeBytes_adjacent (by
      have hinside := slotContents_inside m.setupCount hfits (h.blocksToWrite.2.1 block hmem)
      rw [length_slotContents] at hinside
      rw [List.length_singleton]
      omega))
  rw [← hwrite]
  rfl

/-- `AddSetupElement` either refuses and changes nothing, or stores the element next;
apart from the blocks and the count the object stays as it is. -/
theorem addSetupElement_collects {m : PsiMatch} {es : List Bytes} (h : Stores m es) {element : Bytes}
    (hfits : element.length ≤ kMaxElementBytes) :
    match collect element es with
    | .error e => m.addSetupElement element = (.error e, m)
    | .ok es' => ∃ blocks, m.addSetupElement element =
        (.ok, { m with setupBlocks := blocks, setupCount := es'.length }) ∧
        Stores { m with setupBlocks := blocks, setupCount := es'.length } es' := by
  rw [h.addSetupElement_eq hfits]
  by_cases hfull : es.length ≥ kMaxElements
  · have hc : collect element es = .error tooManySetupElements := if_pos hfull
    rw [hc]
    dsimp only
    rw [h.count, if_pos hfull]
  · by_cases horder : ∃ last ∈ es.getLast?, element ≤ last
    · have hc : collect element es = .error notAscending := by rw [collect, if_neg hfull, if_pos horder]
      rw [hc]
      dsimp only
      rw [if_neg (by rw [h.count]; exact hfull), if_pos ((order_check_iff h element).mpr horder)]
    · have hc : collect element es = .ok (es ++ [element]) := by
        rw [collect, if_neg hfull, if_neg horder]
      rw [hc]
      obtain ⟨hlen, hsize, hold⟩ := h.blocksToWrite
      have hstored := stores_append h hfits hlen hsize hold
      refine ⟨_, ?_, by simpa using hstored⟩
      rw [if_neg (by rw [h.count]; exact hfull),
        if_neg (fun hcheck => horder ((order_check_iff h element).mp hcheck))]
      simp only [h.count, shiftRight_block, List.length_append, List.length_singleton]

end Add

end PsiMatch
end PrivateSetIntersection
