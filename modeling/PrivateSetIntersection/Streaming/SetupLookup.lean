import PrivateSetIntersection.Streaming.SetupStore

/-! `FindInSetup` over the blocks of slots, and what holds of them whatever is added: no
access is outside a block, nothing stored is lost, and the search finds what is stored. -/
namespace PrivateSetIntersection
open Library

namespace PsiMatch

section Search
variable {m : PsiMatch} {es : List Bytes}

/-- The binary search finds the element between the bounds, if it is there at all. -/
private theorem searchSetup_spec (hstores : Stores m es) (hascending : es.Pairwise (· < ·))
    (x : Bytes) (low high : Nat) (hhigh : high ≤ es.length)
    (hbelow : ∀ k (hk : k < es.length), k < low → es[k] < x)
    (habove : ∀ k (hk : k < es.length), high ≤ k → x < es[k]) :
    (∃ k : Nat, es[k]? = some x ∧ m.searchSetup x low high = k) ∨
      x ∉ es ∧ m.searchSetup x low high = -1 := by
  have hmono : ∀ i j (hi : i < es.length) (hj : j < es.length), i < j → es[i] < es[j] :=
    fun i j hi hj hij => List.pairwise_iff_getElem.mp hascending i j hi hj hij
  fun_induction searchSetup m x low high with
  | case1 low high hlt mid order hzero =>
    have hmid : mid < es.length := by omega
    have hfound : es[mid] = x := by
      rw [← hstores.setupElement hmid]
      exact compareElements_eq_zero.mp hzero
    exact Or.inl ⟨mid, by rw [List.getElem?_eq_getElem hmid, hfound], rfl⟩
  | case2 low high hlt mid order hzero hneg ih =>
    have hmid : mid < es.length := by omega
    have hless : es[mid] < x := by
      rw [← hstores.setupElement hmid]
      exact compareElements_neg.mp hneg
    refine ih hhigh (fun k hk hkm => ?_) habove
    rcases Nat.lt_succ_iff_lt_or_eq.mp hkm with hkm | rfl
    · exact (hmono k mid hk hmid hkm).trans hless
    · exact hless
  | case3 low high hlt mid order hzero hneg ih =>
    have hmid : mid < es.length := by omega
    have hless : x < es[mid] := by
      rw [← hstores.setupElement hmid]
      refine lt_of_le_of_ne (compareElements_nonneg.mp (not_lt.mp hneg)) ?_
      exact fun heq => hzero (compareElements_eq_zero.mpr heq.symm)
    refine ih hmid.le hbelow (fun k hk hmk => ?_)
    rcases Nat.eq_or_lt_of_le hmk with rfl | hmk
    · exact hless
    · exact hless.trans (hmono mid k hmid hk hmk)
  | case4 low high hlt =>
    refine Or.inr ⟨fun hmem => ?_, rfl⟩
    obtain ⟨k, hk, rfl⟩ := List.getElem_of_mem hmem
    by_cases hkl : k < low
    · exact absurd (hbelow k hk hkl) (lt_irrefl _)
    · exact absurd (habove k hk (by omega)) (lt_irrefl _)

theorem findInSetup_eq (hstores : Stores m es) (hascending : es.Pairwise (· < ·)) (x : Bytes) :
    m.findInSetup x = if x ∈ es then (es.idxOf x : Int) else -1 := by
  have hspec := searchSetup_spec hstores hascending x 0 es.length (Nat.le_refl _)
    (fun k _ hk => absurd hk (Nat.not_lt_zero k)) (fun k hk hk' => absurd hk (Nat.not_lt.mpr hk'))
  rw [findInSetup, hstores.count]
  rcases hspec with ⟨k, hk, hfound⟩ | ⟨hnot, hfound⟩
  · obtain ⟨hlt, rfl⟩ := List.getElem?_eq_some_iff.mp hk
    have hnodup : es.Nodup := hascending.imp ne_of_lt
    rw [hfound, if_pos (List.getElem_mem hlt)]
    exact congrArg Nat.cast (List.get_idxOf hnodup ⟨k, hlt⟩).symm
  · rw [hfound, if_neg hnot]

end Search

section Reads
variable {m : PsiMatch} {x : Bytes}

/-- The loop of `FindInSetup`, with the indices of the elements it reads. -/
def searchReads (m : PsiMatch) (element : Bytes) (low high : Nat) : Int × List Nat :=
  if low < high then
    let mid := low + (high - low) / 2
    let order := compareElements (m.setupElement mid) element
    if order = 0 then (mid, [mid])
    else if order < 0 then
      let after := searchReads m element (mid + 1) high
      (after.1, mid :: after.2)
    else
      let after := searchReads m element low mid
      (after.1, mid :: after.2)
  else (-1, [])
termination_by high - low

def findReads (m : PsiMatch) (element : Bytes) : List Nat :=
  (m.searchReads element 0 m.setupCount).2

/-- Keeping account of the reads does not change the search. -/
theorem searchReads_fst (low high : Nat) : (m.searchReads x low high).1 = m.searchSetup x low high := by
  fun_induction searchReads m x low high with
  | case1 low high hlt mid order hzero =>
    rw [searchSetup, if_pos hlt]
    exact (if_pos hzero).symm
  | case2 low high hlt mid order hzero hneg after ih =>
    rw [searchSetup, if_pos hlt]
    exact ih.trans ((if_pos hneg).symm.trans (if_neg hzero).symm)
  | case3 low high hlt mid order hzero hneg after ih =>
    rw [searchSetup, if_pos hlt]
    exact ih.trans ((if_neg hneg).symm.trans (if_neg hzero).symm)
  | case4 low high hlt => rw [searchSetup, if_neg hlt]

theorem mem_searchReads {low high k : Nat} (hk : k ∈ (m.searchReads x low high).2) :
    low ≤ k ∧ k < high := by
  fun_induction searchReads m x low high with
  | case1 low high hlt mid order hzero =>
    rw [List.mem_singleton.mp hk]
    omega
  | case2 low high hlt mid order hzero hneg after ih =>
    rcases List.mem_cons.mp hk with rfl | hk
    · omega
    · have := ih hk
      omega
  | case3 low high hlt mid order hzero hneg after ih =>
    rcases List.mem_cons.mp hk with rfl | hk
    · omega
    · have := ih hk
      omega
  | case4 low high hlt => exact absurd hk List.not_mem_nil

/-- Each read halves what is left to search. -/
theorem length_searchReads (low high : Nat) :
    ∀ n, high - low < 2 ^ n → (m.searchReads x low high).2.length ≤ n := by
  fun_induction searchReads m x low high with
  | case1 low high hlt mid order hzero =>
    rintro (_ | n) h
    · omega
    · exact Nat.succ_le_succ (Nat.zero_le n)
  | case2 low high hlt mid order hzero hneg after ih =>
    rintro (_ | n) h
    · omega
    · rw [pow_succ] at h
      exact Nat.succ_le_succ (ih n (by omega))
  | case3 low high hlt mid order hzero hneg after ih =>
    rintro (_ | n) h
    · omega
    · rw [pow_succ] at h
      exact Nat.succ_le_succ (ih n (by omega))
  | case4 low high hlt => exact fun n _ => Nat.zero_le n

end Reads

section Accesses
variable {m : PsiMatch} {es : List Bytes}

/-- `SetupElement` reads inside a block: a length, and as many bytes as it says. -/
def ReadInside (m : PsiMatch) (index : Nat) : Prop :=
  ∃ block, m.setupBlocks[index >>> kBlockSlotsLog2]? = some block ∧
    slotOffset index + 1 + (block.getD (slotOffset index) 0).toNat ≤ block.length

/-- The next slot is written, inside a block, and nothing else changes but the count. -/
def WritesNext (m : PsiMatch) (element : Bytes) (m' : PsiMatch) : Prop :=
  ∃ block, m.blocksToWrite[m.setupCount >>> kBlockSlotsLog2]? = some block ∧
    slotOffset m.setupCount + (slotContents element).length ≤ block.length ∧
    m' = { m with
      setupBlocks := m.blocksToWrite.set (m.setupCount >>> kBlockSlotsLog2)
        (writeBytes block (slotOffset m.setupCount) (slotContents element))
      setupCount := m.setupCount + 1 }

theorem Stores.readInside (h : Stores m es) {k : Nat} (hk : k < es.length) : m.ReadInside k := by
  have hblock : k / kBlockSlots < m.setupBlocks.length := by
    rw [h.blocks, kBlockSlots_eq]
    omega
  have hinside := slotContents_inside k (h.fits es[k] (List.getElem_mem hk))
    (h.size _ (List.getElem_mem hblock))
  have hlength := (h.slot_parts hk).1
  rw [List.getD_eq_getElem _ _ hblock] at hlength
  refine ⟨_, by rw [shiftRight_block]; exact List.getElem?_eq_getElem hblock, ?_⟩
  rw [hlength]
  rw [length_slotContents] at hinside
  omega

theorem Stores.writesNext (h : Stores m es) {element : Bytes} (hfits : element.length ≤ kMaxElementBytes)
    {m' : PsiMatch} (hadd : m.addSetupElement element = (.ok, m')) : m.WritesNext element m' := by
  obtain ⟨hlen, hsize, -⟩ := h.blocksToWrite
  have hblock : m.setupCount >>> kBlockSlotsLog2 < m.blocksToWrite.length := by
    rw [hlen, h.count, shiftRight_block, kBlockSlots_eq]
    omega
  have hinside := slotContents_inside m.setupCount hfits (hsize _ (List.getElem_mem hblock))
  refine ⟨_, List.getElem?_eq_getElem hblock, hinside, ?_⟩
  rw [h.addSetupElement_eq hfits] at hadd
  split at hadd
  · cases hadd
  · split at hadd
    · cases hadd
    · rw [List.modify_eq_set, List.getElem?_eq_getElem hblock, Option.getD_some] at hadd
      exact (Prod.mk.inj hadd).2.symm

end Accesses

section Sequences
variable {m : PsiMatch} {es : List Bytes}

def addAll (m : PsiMatch) (elements : List Bytes) : PsiMatch :=
  elements.foldl (fun m element => (m.addSetupElement element).2) m

def withoutElements (m : PsiMatch) : PsiMatch := { m with setupBlocks := [], setupCount := 0 }

/-- One call: a refusal that changes nothing, or one more element above the others. -/
theorem addSetupElement_stores (h : Stores m es) (hascending : es.Pairwise (· < ·)) {element : Bytes}
    (hfits : element.length ≤ kMaxElementBytes) :
    (∃ e, m.addSetupElement element = (.error e, m)) ∨
      ∃ m', m.addSetupElement element = (.ok, m') ∧ Stores m' (es ++ [element]) ∧
        (es ++ [element]).Pairwise (· < ·) := by
  have hadd := addSetupElement_collects h hfits
  by_cases hfull : es.length ≥ kMaxElements
  · rw [show collect element es = .error tooManySetupElements from if_pos hfull] at hadd
    exact Or.inl ⟨_, hadd⟩
  · by_cases horder : ∃ last ∈ es.getLast?, element ≤ last
    · rw [collect, if_neg hfull, if_pos horder] at hadd
      exact Or.inl ⟨_, hadd⟩
    · rw [collect, if_neg hfull, if_neg horder] at hadd
      obtain ⟨blocks, hok, hstores⟩ := hadd
      exact Or.inr ⟨_, hok, hstores, (pairwise_concat_iff hascending element).mpr horder⟩

/-- An element is taken exactly if the store has room and every stored one is below it. -/
theorem addSetupElement_ok_iff (h : Stores m es) (hascending : es.Pairwise (· < ·)) {element : Bytes}
    (hfits : element.length ≤ kMaxElementBytes) :
    (m.addSetupElement element).1 = .ok ↔
      m.setupCount < kMaxElements ∧ ∀ k < m.setupCount, m.setupElement k < element := by
  have hadd := addSetupElement_collects h hfits
  have hrefused {e : Error} : Status.error e ≠ .ok := Status.noConfusion
  have hbelow : (∀ k < m.setupCount, m.setupElement k < element) ↔ ¬ ∃ last ∈ es.getLast?, element ≤ last := by
    rw [← pairwise_concat_iff hascending element, List.pairwise_append, h.count]
    constructor
    · intro hall
      refine ⟨hascending, List.pairwise_singleton _ _, fun a ha b hb => ?_⟩
      obtain ⟨k, hk, rfl⟩ := List.getElem_of_mem ha
      rw [List.mem_singleton.mp hb, ← h.setupElement hk]
      exact hall k hk
    · rintro ⟨-, -, hall⟩ k hk
      rw [h.setupElement hk]
      exact hall _ (List.getElem_mem hk) _ (List.mem_singleton_self _)
  rw [hbelow, h.count]
  by_cases hfull : es.length ≥ kMaxElements
  · rw [show collect element es = .error tooManySetupElements from if_pos hfull] at hadd
    dsimp only at hadd
    rw [hadd]
    exact iff_of_false hrefused fun hroom => absurd hroom.1 (not_lt.mpr hfull)
  · by_cases horder : ∃ last ∈ es.getLast?, element ≤ last
    · rw [collect, if_neg hfull, if_pos horder] at hadd
      dsimp only at hadd
      rw [hadd]
      exact iff_of_false hrefused fun hroom => hroom.2 horder
    · rw [collect, if_neg hfull, if_neg horder] at hadd
      obtain ⟨blocks, hok, -⟩ := hadd
      rw [hok]
      exact iff_of_true rfl ⟨not_le.mp hfull, horder⟩

/-- Any number of calls: what was stored is a prefix of what is stored. -/
theorem addAll_stores (h : Stores m es) (hascending : es.Pairwise (· < ·)) (elements : List Bytes)
    (hfits : ∀ e ∈ elements, e.length ≤ kMaxElementBytes) :
    ∃ es', es <+: es' ∧ Stores (m.addAll elements) es' ∧ es'.Pairwise (· < ·) := by
  induction elements generalizing m es with
  | nil => exact ⟨es, List.prefix_refl es, h, hascending⟩
  | cons element rest ih =>
    obtain ⟨hfit, hrest⟩ := List.forall_mem_cons.mp hfits
    rw [addAll, List.foldl_cons, ← addAll]
    rcases addSetupElement_stores h hascending hfit with ⟨e, hadd⟩ | ⟨m', hadd, hstores, habove⟩
    · rw [hadd]
      exact ih h hascending hrest
    · rw [hadd]
      obtain ⟨es', hkept, hall⟩ := ih hstores habove hrest
      exact ⟨es', (List.prefix_append es [element]).trans hkept, hall⟩

/-- The store between any two calls of `AddSetupElement`. -/
structure SoundStore (m : PsiMatch) : Prop where
  blocks : m.setupBlocks.length = (m.setupCount + 65535) / 65536
  reads : ∀ k < m.setupCount, m.ReadInside k
  ascending : ∀ i j, i < j → j < m.setupCount → m.setupElement i < m.setupElement j
  add : ∀ element : Bytes, element.length ≤ kMaxElementBytes →
    (∃ e, m.addSetupElement element = (.error e, m)) ∨
      ∃ m', m.addSetupElement element = (.ok, m') ∧ m.WritesNext element m' ∧
        m'.setupElement m.setupCount = element
  taken : ∀ element : Bytes, element.length ≤ kMaxElementBytes →
    ((m.addSetupElement element).1 = .ok ↔
      m.setupCount < kMaxElements ∧ ∀ k < m.setupCount, m.setupElement k < element)
  kept : ∀ more : List Bytes, (∀ e ∈ more, e.length ≤ kMaxElementBytes) →
    m.setupCount ≤ (m.addAll more).setupCount ∧
      ∀ k < m.setupCount, (m.addAll more).setupElement k = m.setupElement k

/-- The search for an element: what it reads, and what it gives. -/
structure SoundSearch (m : PsiMatch) (x : Bytes) : Prop where
  result : (m.searchReads x 0 m.setupCount).1 = m.findInSetup x
  reads : ∀ k ∈ m.findReads x, k < m.setupCount
  steps : (m.findReads x).length ≤ m.setupCount.size
  found : ∀ k : Nat, m.findInSetup x = k ↔ k < m.setupCount ∧ m.setupElement k = x
  missed : m.findInSetup x = -1 ↔ ∀ k < m.setupCount, m.setupElement k ≠ x

theorem Stores.soundStore (h : Stores m es) (hascending : es.Pairwise (· < ·)) : SoundStore m where
  blocks := by
    rw [h.blocks, h.count]
    rfl
  reads k hk := h.readInside (h.count ▸ hk)
  ascending i j hij hj := by
    rw [h.count] at hj
    rw [h.setupElement hj, h.setupElement (hij.trans hj)]
    exact List.pairwise_iff_getElem.mp hascending i j _ _ hij
  add element hfits := by
    rcases addSetupElement_stores h hascending hfits with hrefused | ⟨m', hadd, hstores, -⟩
    · exact Or.inl hrefused
    · refine Or.inr ⟨m', hadd, h.writesNext hfits hadd, ?_⟩
      rw [h.count, hstores.setupElement (by simp), List.getElem_concat_length rfl]
  taken _ hfits := addSetupElement_ok_iff h hascending hfits
  kept more hfits := by
    obtain ⟨es', hkept, hstores, -⟩ := addAll_stores h hascending more hfits
    rw [h.count, hstores.count]
    refine ⟨hkept.length_le, fun k hk => ?_⟩
    rw [hstores.setupElement (hk.trans_le hkept.length_le), h.setupElement hk]
    exact (hkept.getElem hk).symm

theorem Stores.soundSearch (h : Stores m es) (hascending : es.Pairwise (· < ·)) (x : Bytes) :
    SoundSearch m x where
  result := searchReads_fst 0 m.setupCount
  reads k hk := (mem_searchReads hk).2
  steps := length_searchReads 0 m.setupCount _ (Nat.lt_size_self m.setupCount)
  found k := by
    rw [findInSetup_eq h hascending, h.count]
    split <;> rename_i hmem
    · rw [Nat.cast_inj]
      constructor
      · rintro rfl
        have hidx := List.idxOf_lt_length_of_mem hmem
        exact ⟨hidx, (h.setupElement hidx).trans (List.getElem_idxOf hidx)⟩
      · rintro ⟨hk, rfl⟩
        rw [h.setupElement hk]
        exact List.get_idxOf (hascending.imp ne_of_lt) ⟨k, hk⟩
    · refine iff_of_false (by omega) ?_
      rintro ⟨hk, rfl⟩
      exact hmem (h.setupElement hk ▸ List.getElem_mem hk)
  missed := by
    rw [findInSetup_eq h hascending, h.count]
    split <;> rename_i hmem
    · have hidx := List.idxOf_lt_length_of_mem hmem
      refine iff_of_false (by omega) fun hnone => ?_
      exact hnone _ hidx ((h.setupElement hidx).trans (List.getElem_idxOf hidx))
    · refine iff_of_true rfl ?_
      rintro k hk rfl
      exact hmem (h.setupElement hk ▸ List.getElem_mem hk)

/-- Whatever elements are passed, accepted or not: those above the others are taken while there
is room, all accesses are inside the blocks, nothing stored changes, and the search finds
exactly what is stored. -/
theorem slot_store_and_lookup (m : PsiMatch) (elements : List Bytes)
    (hfits : ∀ e ∈ elements, e.length ≤ kMaxElementBytes) :
    SoundStore (m.withoutElements.addAll elements) ∧
      ∀ x, SoundSearch (m.withoutElements.addAll elements) x := by
  obtain ⟨es, -, hstores, hascending⟩ := addAll_stores (Stores.empty (m := m.withoutElements) rfl rfl)
    .nil elements hfits
  exact ⟨hstores.soundStore hascending, hstores.soundSearch hascending⟩

/-- The last of three elements is not above the others. -/
theorem slot_store_and_lookup_refused :
    SoundStore ((withoutElements { revealIntersection := true }).addAll [[], [1, 0x80], [1]]) ∧
      ∀ x, SoundSearch ((withoutElements { revealIntersection := true }).addAll [[], [1, 0x80], [1]]) x :=
  slot_store_and_lookup _ [[], [1, 0x80], [1]] (by decide)

end Sequences

end PsiMatch
end PrivateSetIntersection
