import PrivateSetIntersection.Datastructure.Raw

/-! The in-place reordering of `Raw` follows the cycles of its permutation, and leaves in
every place the element the permutation names for it. -/
namespace PrivateSetIntersection
open Library

/-- The place the element of place `k` comes from. -/
def origin (permutation : List Nat) (k : Nat) : Nat := permutation.getD k 0

section Origin
variable {permutation : List Nat} {n : Nat} (hperm : permutation.Perm (List.range n))
include hperm

theorem length_of_perm_range : permutation.length = n := by
  rw [hperm.length_eq, List.length_range]

theorem getElem?_origin {k : Nat} (hk : k < n) : permutation[k]? = some (origin permutation k) := by
  rw [← length_of_perm_range hperm] at hk
  rw [origin, List.getD_eq_getElem _ _ hk, List.getElem?_eq_getElem hk]

theorem origin_lt {k : Nat} (hk : k < n) : origin permutation k < n := by
  rw [← List.mem_range, ← hperm.mem_iff]
  exact List.mem_of_getElem? (getElem?_origin hperm hk)

theorem origin_injOn : Set.InjOn (origin permutation) {k | k < n} := by
  intro a ha b hb hab
  have hnodup : permutation.Nodup := hperm.nodup_iff.mpr List.nodup_range
  have hlen := length_of_perm_range hperm
  have ha' : a < permutation.length := hlen ▸ ha
  have hb' : b < permutation.length := hlen ▸ hb
  rw [origin, origin, List.getD_eq_getElem _ _ ha', List.getD_eq_getElem _ _ hb'] at hab
  exact (hnodup.getElem_inj_iff).mp hab

theorem exists_origin {j : Nat} (hj : j < n) : ∃ k < n, origin permutation k = j := by
  rw [← List.mem_range, ← hperm.mem_iff] at hj
  obtain ⟨k, hk⟩ := List.mem_iff_getElem?.mp hj
  have hlt : k < n := length_of_perm_range hperm ▸ (List.getElem?_eq_some_iff.mp hk).1
  exact ⟨k, hlt, Option.some.inj ((getElem?_origin hperm hlt).symm.trans hk)⟩

end Origin

/-- Where the inner loop stands: `S` are the places rewritten since the cycle was
entered at `i`, and `j` is the place they lead to. -/
structure Walked (permutation : List Nat) (n i : Nat) (Q : Nat → Prop) (before : List Bytes × List Bool)
    (S : Finset Nat) (j : Nat) (after : List Bytes × List Bool) : Prop where
  inside : ∀ k ∈ insert j S, k < n ∧ Q k
  start : i ∉ S
  path : (insert i S).image (origin permutation) = insert j S
  length : after.1.length = n ∧ after.2.length = n
  moved : ∀ k < n, after.1[k]? = if k ∈ S then before.1[origin permutation k]? else before.1[k]?
  indexVisited : ∀ k < n, after.2[k]? = if k ∈ S then some true else before.2[k]?

section Walk
variable {permutation : List Nat} {n i j : Nat} {Q : Nat → Prop} {before after : List Bytes × List Bool}
  {S : Finset Nat}

/-- The place the walk has come to is not one it has rewritten. -/
private theorem Walked.end_notMem (h : Walked permutation n i Q before S j after)
    (hperm : permutation.Perm (List.range n)) (hi : i < n) : j ∉ S := by
  intro hj
  have hinj : Set.InjOn (origin permutation) (insert i S : Finset Nat) := by
    refine (origin_injOn hperm).mono fun k hk => ?_
    rcases Finset.mem_insert.mp hk with rfl | hk
    · exact hi
    · exact (h.inside k (Finset.mem_insert_of_mem hk)).1
  have hcard := Finset.card_image_of_injOn hinj
  rw [h.path, Finset.insert_eq_of_mem hj, Finset.card_insert_of_notMem h.start] at hcard
  omega

private theorem Walked.step (h : Walked permutation n i Q before S j after)
    (hperm : permutation.Perm (List.range n)) (hi : i < n) (hji : j ≠ i)
    (hQ : ∀ k, k < n → Q k → Q (origin permutation k)) (hbefore : before.1.length = n) :
    ∃ value, after.1[origin permutation j]? = some value ∧
      Walked permutation n i Q before (insert j S) (origin permutation j)
        (after.1.set j value, after.2.set j true) := by
  have hjS := h.end_notMem hperm hi
  obtain ⟨hjn, hjQ⟩ := h.inside j (Finset.mem_insert_self j S)
  have hnext := origin_lt hperm hjn
  -- the next place is fresh too, or two places of the walk would have one origin
  have hnextS : origin permutation j ∉ S := by
    intro hmem
    have himage : origin permutation j ∈ (insert i S).image (origin permutation) := by
      rw [h.path]
      exact Finset.mem_insert_of_mem hmem
    obtain ⟨k, hk, hkj⟩ := Finset.mem_image.mp himage
    have hkn : k < n := by
      rcases Finset.mem_insert.mp hk with rfl | hk
      · exact hi
      · exact (h.inside k (Finset.mem_insert_of_mem hk)).1
    have heq : k = j := origin_injOn hperm hkn hjn hkj
    rcases Finset.mem_insert.mp hk with rfl | hk
    · exact hji heq.symm
    · exact hjS (heq ▸ hk)
  have hvalue : after.1[origin permutation j]? = some before.1[origin permutation j] := by
    rw [h.moved _ hnext, if_neg hnextS, List.getElem?_eq_getElem]
  refine ⟨_, hvalue, ?_, ?_, ?_, ?_, ?_, ?_⟩
  · intro k hk
    rcases Finset.mem_insert.mp hk with rfl | hk
    · exact ⟨hnext, hQ j hjn hjQ⟩
    · exact h.inside k hk
  · rw [Finset.mem_insert, not_or]
    exact ⟨hji.symm, h.start⟩
  · rw [Finset.insert_comm, Finset.image_insert, h.path]
  · simpa only [List.length_set] using h.length
  · intro k hk
    dsimp only
    rw [List.getElem?_set]
    by_cases hkj : j = k
    · subst hkj
      rw [if_pos rfl, if_pos (by rw [h.length.1]; exact hjn), if_pos (Finset.mem_insert_self j S),
        List.getElem?_eq_getElem]
    · rw [if_neg hkj, h.moved k hk]
      simp only [Finset.mem_insert, Ne.symm hkj, false_or]
  · intro k hk
    dsimp only
    rw [List.getElem?_set]
    by_cases hkj : j = k
    · subst hkj
      rw [if_pos rfl, if_pos (by rw [h.length.2]; exact hjn), if_pos (Finset.mem_insert_self j S)]
    · rw [if_neg hkj, h.indexVisited k hk]
      simp only [Finset.mem_insert, Ne.symm hkj, false_or]

/-- The inner loop comes back to where the cycle was entered. -/
private theorem followCycle_walks (hperm : permutation.Perm (List.range n)) (hi : i < n)
    (hQ : ∀ k, k < n → Q k → Q (origin permutation k)) (hbefore : before.1.length = n) (fuel : Nat)
    (h : Walked permutation n i Q before S j after) (hfuel : n < fuel + S.card) :
    ∃ C final, followCycle permutation i fuel j after.1 after.2 = some final ∧
      Walked permutation n i Q before C i final := by
  induction fuel generalizing S j after with
  | zero =>
    have hsub : S ⊆ Finset.range n := fun k hk =>
      Finset.mem_range.mpr (h.inside k (Finset.mem_insert_of_mem hk)).1
    have hcard := Finset.card_le_card hsub
    rw [Finset.card_range] at hcard
    omega
  | succ fuel ih =>
    rw [followCycle]
    by_cases hji : j = i
    · subst hji
      rw [if_pos rfl]
      exact ⟨S, after, rfl, h⟩
    · rw [if_neg hji]
      obtain ⟨value, hvalue, hstep⟩ := h.step hperm hi hji hQ hbefore
      have hjn := (h.inside j (Finset.mem_insert_self j S)).1
      have hcard := Finset.card_insert_of_notMem (h.end_notMem hperm hi)
      obtain ⟨C, final, hfollow, hwalked⟩ := ih hstep (by omega)
      refine ⟨C, final, ?_, hwalked⟩
      simp only [getElem?_origin hperm hjn, hvalue, assign, h.length.1, h.length.2, if_pos hjn,
        Option.bind_eq_bind, Option.bind_some]
      exact hfollow

end Walk

/-- Where the outer loop stands before `i`: the places of `Done` are the cycles it has
rewritten, and of the places from `i` on just these are marked. -/
structure Rewritten (permutation : List Nat) (elements : List Bytes) (i : Nat) (Done : Finset Nat)
    (state : List Bytes × List Bool) : Prop where
  inside : ∀ k ∈ Done, k < elements.length
  closed : Done.image (origin permutation) = Done
  passed : ∀ k < i, k ∈ Done
  length : state.1.length = elements.length ∧ state.2.length = elements.length
  moved : ∀ k < elements.length,
    state.1[k]? = if k ∈ Done then elements[origin permutation k]? else elements[k]?
  indexVisited : ∀ k < elements.length, i ≤ k → state.2[k]? = some (decide (k ∈ Done))

section Outer
variable {permutation : List Nat} {elements : List Bytes} {i : Nat} {Done : Finset Nat}
  {state : List Bytes × List Bool}

/-- A union of cycles takes in no origin from outside. -/
private theorem Rewritten.origin_notMem (h : Rewritten permutation elements i Done state)
    (hperm : permutation.Perm (List.range elements.length)) {k : Nat} (hk : k < elements.length)
    (hnot : k ∉ Done) : origin permutation k ∉ Done := by
  intro hmem
  rw [← h.closed] at hmem
  obtain ⟨d, hd, hdk⟩ := Finset.mem_image.mp hmem
  exact hnot (origin_injOn hperm (h.inside d hd) hk hdk ▸ hd)

/-- A cycle that is not rewritten yet is entered with no place of it rewritten. -/
private theorem Rewritten.entered (h : Rewritten permutation elements i Done state)
    (hperm : permutation.Perm (List.range elements.length)) (hi : i < elements.length) (hnot : i ∉ Done) :
    Walked permutation elements.length i (· ∉ Done) state ∅ (origin permutation i) state where
  inside k hk := by
    rw [insert_empty_eq, Finset.mem_singleton] at hk
    subst hk
    exact ⟨origin_lt hperm hi, h.origin_notMem hperm hi hnot⟩
  start := Finset.notMem_empty i
  path := by rw [insert_empty_eq, insert_empty_eq, Finset.image_singleton]
  length := h.length
  moved k _ := by rw [if_neg (Finset.notMem_empty k)]
  indexVisited k _ := by rw [if_neg (Finset.notMem_empty k)]

/-- A walk that came back, its entry rewritten last, adds one cycle to those done. -/
private theorem Rewritten.closed_cycle {C : Finset Nat} {final : List Bytes × List Bool}
    (h : Rewritten permutation elements i Done state)
    (hperm : permutation.Perm (List.range elements.length)) (hi : i < elements.length)
    (hwalked : Walked permutation elements.length i (· ∉ Done) state C i final) :
    Rewritten permutation elements (i + 1) (Done ∪ insert i C)
      (final.1.set i (elements.getD (origin permutation i) []), final.2) where
  inside k hk := by
    rcases Finset.mem_union.mp hk with hk | hk
    · exact h.inside k hk
    · exact (hwalked.inside k hk).1
  closed := by rw [Finset.image_union, h.closed, hwalked.path]
  passed k hk := by
    rcases Nat.lt_succ_iff_lt_or_eq.mp hk with hk | rfl
    · exact Finset.mem_union_left _ (h.passed k hk)
    · exact Finset.mem_union_right _ (Finset.mem_insert_self k C)
  length := by simpa only [List.length_set] using hwalked.length
  moved k hk := by
    have hfinal : i < final.1.length := hwalked.length.1 ▸ hi
    have hj := origin_lt hperm hi
    dsimp only
    rw [List.getElem?_set]
    by_cases hik : i = k
    · subst hik
      rw [if_pos rfl, if_pos hfinal, if_pos (by simp), List.getD_eq_getElem _ _ hj,
        List.getElem?_eq_getElem hj]
    · rw [if_neg hik, hwalked.moved k hk]
      simp only [Finset.mem_union, Finset.mem_insert, Ne.symm hik, false_or]
      by_cases hkC : k ∈ C
      · have hknot := (hwalked.inside k (Finset.mem_insert_of_mem hkC)).2
        rw [if_pos hkC, if_pos (Or.inr hkC), h.moved _ (origin_lt hperm hk),
          if_neg (h.origin_notMem hperm hk hknot)]
      · rw [if_neg hkC, h.moved k hk]
        simp only [hkC, or_false]
  indexVisited k hk hik := by
    have hne : k ≠ i := by omega
    dsimp only
    rw [hwalked.indexVisited k hk, h.indexVisited k hk (by omega)]
    simp only [Finset.mem_union, Finset.mem_insert, hne, false_or]
    by_cases hkC : k ∈ C <;> simp [hkC]

private theorem rewriteCycle_rewrites (hperm : permutation.Perm (List.range elements.length))
    (hi : i < elements.length) (h : Rewritten permutation elements i Done state) :
    ∃ Done' state', rewriteCycle permutation state i = some state' ∧
      Rewritten permutation elements (i + 1) Done' state' := by
  have hvisited := h.indexVisited i hi (Nat.le_refl i)
  rw [rewriteCycle]
  dsimp only
  rw [hvisited]
  by_cases hdone : i ∈ Done
  · refine ⟨Done, state, by simp [hdone], h.inside, h.closed, ?_, h.length,
      h.moved, fun k hk hik => h.indexVisited k hk (by omega)⟩
    intro k hk
    rcases Nat.lt_succ_iff_lt_or_eq.mp hk with hk | rfl
    · exact h.passed k hk
    · exact hdone
  · have hj := origin_lt hperm hi
    have hvalue : state.1[origin permutation i]? = some (elements.getD (origin permutation i) []) := by
      rw [h.moved _ hj, if_neg (h.origin_notMem hperm hi hdone), List.getD_eq_getElem _ _ hj,
        List.getElem?_eq_getElem hj]
    obtain ⟨C, final, hfollow, hwalked⟩ := followCycle_walks hperm hi
      (fun k hk hnot => h.origin_notMem hperm hk hnot) h.length.1 (state.1.length + 1)
      (h.entered hperm hi hdone) (by
        rw [h.length.1]
        exact Nat.lt_add_right _ (Nat.lt_succ_self _))
    have hfinal : i < final.1.length := hwalked.length.1 ▸ hi
    refine ⟨_, _, ?_, h.closed_cycle hperm hi hwalked⟩
    simp only [Option.bind_eq_bind, Option.bind_some, hdone, decide_false, Bool.false_eq_true, if_false,
      getElem?_origin hperm hi, hvalue, hfollow, assign, if_pos hfinal]
    rfl

private theorem foldlM_rewrites (hperm : permutation.Perm (List.range elements.length)) (n : Nat)
    (hn : n ≤ elements.length) :
    ∃ Done state, (List.range n).foldlM (rewriteCycle permutation)
        (elements, List.replicate elements.length false) = some state ∧
      Rewritten permutation elements n Done state := by
  induction n with
  | zero =>
    refine ⟨∅, _, rfl, nofun, Finset.image_empty _, nofun, ⟨rfl, List.length_replicate⟩,
      fun k _ => by simp, fun k hk _ => by simp [hk]⟩
  | succ n ih =>
    obtain ⟨Done, state, hfold, hrewritten⟩ := ih (by omega)
    obtain ⟨Done', state', hstep, hrewritten'⟩ := rewriteCycle_rewrites hperm hn hrewritten
    refine ⟨Done', state', ?_, hrewritten'⟩
    rw [List.range_succ, List.foldlM_append, hfold]
    simpa using hstep

/-- The in-place reordering puts into every place the element the permutation names. -/
theorem applyPermutation_eq (hperm : permutation.Perm (List.range elements.length)) :
    applyPermutation permutation elements = some (permutation.map (fun k => elements.getD k [])) := by
  obtain ⟨Done, state, hfold, h⟩ := foldlM_rewrites hperm elements.length (Nat.le_refl _)
  obtain ⟨final, marked⟩ := state
  have hlen := length_of_perm_range hperm
  have hfinal : final = permutation.map (fun k => elements.getD k []) := by
    apply List.ext_getElem?
    intro k
    by_cases hk : k < elements.length
    · have horigin := origin_lt hperm hk
      have hmoved := h.moved k hk
      rw [if_pos (h.passed k hk), List.getElem?_eq_getElem horigin] at hmoved
      rw [hmoved, List.getElem?_map, getElem?_origin hperm hk, Option.map_some,
        List.getD_eq_getElem _ _ horigin]
    · have hlength := h.length.1
      dsimp only at hlength
      rw [List.getElem?_eq_none (by omega), List.getElem?_eq_none (by rw [List.length_map]; omega)]
  simp only [applyPermutation, hfold, hfinal, Option.bind_eq_bind, Option.bind_some]
  rfl

end Outer

section IndexSort
variable (S : ComparisonSort) (elements : List Bytes)

theorem elementsLess_byKey : ByKey (fun k => elements.getD k []) (elementsLess elements) :=
  fun _ _ => decide_eq_true_iff

/-- The permutation either of the two index sorts computes. -/
def sortingPermutation : List Nat := S.sort (elementsLess elements) (List.range elements.length)

theorem sortingPermutation_perm :
    (sortingPermutation S elements).Perm (List.range elements.length) := S.perm _ _

def arrange (elements : List Bytes) (permutation : List Nat) : List Bytes :=
  permutation.map (fun k => elements.getD k [])

@[simp] theorem length_arrange (permutation : List Nat) :
    (arrange elements permutation).length = permutation.length := List.length_map _

theorem arrange_range : arrange elements (List.range elements.length) = elements := by
  apply List.ext_getElem
  · simp
  · intro k _ hk
    simp only [arrange]
    rw [List.getElem_map, List.getElem_range, List.getD_eq_getElem _ _ hk]

theorem arrange_perm {permutation : List Nat} (h : permutation.Perm (List.range elements.length)) :
    (arrange elements permutation).Perm elements := by
  have hmap := h.map (fun k => elements.getD k [])
  have hrange : (List.range elements.length).map (fun k => elements.getD k []) = elements :=
    arrange_range elements
  rwa [hrange] at hmap

theorem arrange_ascending :
    (arrange elements (sortingPermutation S elements)).Pairwise (· ≤ ·) := by
  rw [arrange, List.pairwise_map]
  exact S.sort_ascending (elementsLess_byKey elements) (List.range elements.length)

/-- Any two index sorts of permuted lists arrange them alike. -/
theorem arrange_unique (T : ComparisonSort) {elements elements' : List Bytes}
    (h : elements.Perm elements') :
    arrange elements (sortingPermutation S elements) =
      arrange elements' (sortingPermutation T elements') :=
  ascending_unique (arrange_ascending S elements) (arrange_ascending T elements')
    ((arrange_perm _ (sortingPermutation_perm S elements)).trans
      (h.trans (arrange_perm _ (sortingPermutation_perm T elements')).symm))

theorem applyPermutation_sorted :
    applyPermutation (sortingPermutation S elements) elements =
      some (arrange elements (sortingPermutation S elements)) :=
  applyPermutation_eq (sortingPermutation_perm S elements)

/-- `Create` sorts the elements and reports the permutation, whatever the caller's vector held. -/
theorem Raw.create_eq (sortingPermutationPtr : Option (List Nat)) :
    Raw.create S elements sortingPermutationPtr =
      .ok (⟨arrange elements (sortingPermutation S elements)⟩, sortingPermutation S elements) := by
  have hiota (xs : List Nat) : iota (resize xs elements.length) = List.range elements.length := by
    rw [iota, resize, List.length_append, List.length_take, List.length_replicate]
    congr 1
    omega
  have happly := applyPermutation_sorted S elements
  rw [sortingPermutation] at happly ⊢
  simp only [Raw.create, hiota, happly, StatusOr.ofOption_some, StatusOr.ok_bind, StatusOr.pure_eq]

/-- What is stored at `k` is the element the reported permutation names for `k`. -/
theorem getElem?_arrange {permutation : List Nat}
    (h : permutation.Perm (List.range elements.length)) {k : Nat} (hk : k < elements.length) :
    (arrange elements permutation)[k]? = elements[origin permutation k]? := by
  have horigin := origin_lt h hk
  rw [arrange, List.getElem?_map, getElem?_origin h hk, Option.map_some,
    List.getD_eq_getElem _ _ horigin, List.getElem?_eq_getElem horigin]

/-- `Create` stores the elements in ascending order, and reports the bijection that says
where each of them was, whatever the caller's vector held. -/
theorem Raw.create_sorts (sortingPermutationPtr : Option (List Nat)) :
    ∃ raw permutation, Raw.create S elements sortingPermutationPtr = .ok (raw, permutation) ∧
      raw.encrypted.Pairwise (· ≤ ·) ∧ raw.encrypted.length = elements.length ∧
      permutation.length = elements.length ∧ permutation.Perm (List.range elements.length) ∧
      (∀ k < elements.length, ∃ j < elements.length, permutation[k]? = some j ∧
        raw.encrypted[k]? = elements[j]?) ∧
      raw.toProtobuf.rawInfo.encryptedElements.Perm elements := by
  have hperm := sortingPermutation_perm S elements
  have hlength := length_of_perm_range hperm
  refine ⟨_, _, Raw.create_eq S elements sortingPermutationPtr, arrange_ascending S elements,
    (length_arrange _ _).trans hlength, hlength, hperm, fun k hk => ?_, arrange_perm _ hperm⟩
  exact ⟨_, origin_lt hperm hk, getElem?_origin hperm hk, getElem?_arrange elements hperm hk⟩

end IndexSort

end PrivateSetIntersection
