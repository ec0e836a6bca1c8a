import PrivateSetIntersection.Datastructure.CycleRewrite

/-! `Raw::Intersect` matches every occurrence of a value on one side with an occurrence on
the other: a value is counted as often as both sides have it, first occurrences first. -/
namespace PrivateSetIntersection
open Library

section Merge

/-- The merge keeps, of the entries of every value, the first ones: as many as the
second list has of it. -/
theorem customSetIntersection_spec (first : List (Bytes × Nat)) (second : List Bytes)
    (hfirst : first.Pairwise (fun a b => a.1 ≤ b.1)) (hsecond : second.Pairwise (· ≤ ·)) :
    ∃ matched : List (Bytes × Nat), matched.Sublist first ∧
      customSetIntersection first second = matched.map Prod.snd ∧
      ∀ v, matched.filter (fun p => p.1 = v) = (first.filter (fun p => p.1 = v)).take (second.count v) := by
  fun_induction customSetIntersection first second with
  | case1 second => exact ⟨[], List.Sublist.refl _, rfl, fun v => by simp⟩
  | case2 first => exact ⟨[], List.nil_sublist _, rfl, fun v => by simp⟩
  | case3 x i first y second hless ih =>
    obtain ⟨matched, hsub, heq, hcount⟩ := ih (List.pairwise_cons.mp hfirst).2 hsecond
    refine ⟨matched, hsub.cons _, heq, fun v => ?_⟩
    rw [hcount, List.filter_cons]
    split <;> rename_i hv
    · have hnot : v ∉ y :: second := by
        rw [← of_decide_eq_true hv]
        intro hmem
        rcases List.mem_cons.mp hmem with rfl | hmem
        · exact lt_irrefl _ hless
        · exact absurd (hless.trans_le ((List.pairwise_cons.mp hsecond).1 _ hmem)) (lt_irrefl _)
      rw [List.count_eq_zero_of_not_mem hnot, List.take_zero, List.take_zero]
    · rfl
  | case4 x i first y second hless hgreater ih =>
    have hxy : x = y := le_antisymm (not_lt.mp hgreater) (not_lt.mp hless)
    subst hxy
    obtain ⟨matched, hsub, heq, hcount⟩ :=
      ih (List.pairwise_cons.mp hfirst).2 (List.pairwise_cons.mp hsecond).2
    refine ⟨(x, i) :: matched, hsub.cons_cons _, by rw [heq, List.map_cons], fun v => ?_⟩
    rw [List.filter_cons, List.filter_cons, hcount]
    split <;> rename_i hv
    · have hxv : x = v := of_decide_eq_true hv
      rw [hxv, List.count_cons_self, List.take_succ_cons]
    · have hxv : ¬ x = v := fun h => hv (decide_eq_true h)
      rw [List.count_cons_of_ne hxv]
  | case5 x i first y second hless hgreater ih =>
    rw [not_not] at hgreater
    obtain ⟨matched, hsub, heq, hcount⟩ := ih hfirst (List.pairwise_cons.mp hsecond).2
    refine ⟨matched, hsub, heq, fun v => ?_⟩
    rw [hcount]
    by_cases hyv : y = v
    · have hnone : ((x, i) :: first).filter (fun p => p.1 = v) = [] := by
        rw [List.filter_eq_nil_iff]
        intro p hp hv
        have hpv : p.1 = v := of_decide_eq_true hv
        have hxp : x ≤ p.1 := by
          rcases List.mem_cons.mp hp with rfl | hp
          · exact le_refl _
          · exact (List.pairwise_cons.mp hfirst).1 p hp
        rw [hpv, ← hyv] at hxp
        exact lt_irrefl _ (hgreater.trans_le hxp)
      rw [hnone, List.take_nil, List.take_nil]
    · rw [List.count_cons_of_ne hyv]

end Merge

section Pairs

theorem pairLess_byKey : ByKey (toLex : Bytes × Nat → Bytes ×ₗ Nat) Raw.pairLess := by
  intro a b
  rw [Raw.pairLess, Prod.Lex.toLex_lt_toLex]
  simp only [Bool.or_eq_true, Bool.and_eq_true, Bool.not_eq_true', decide_eq_true_eq,
    decide_eq_false_iff_not, not_lt]
  constructor
  · rintro (h | ⟨hle, hlt⟩)
    · exact Or.inl h
    · exact hle.lt_or_eq.imp id fun heq => ⟨heq, hlt⟩
  · rintro (h | ⟨heq, hlt⟩)
    · exact Or.inl h
    · exact Or.inr ⟨heq.le, hlt⟩

variable (S : ComparisonSort) (elements : List Bytes)

theorem sorted_pairs_ascending :
    (S.sort Raw.pairLess elements.zipIdx).Pairwise (fun a b => a.1 ≤ b.1) :=
  (S.sort_ascending pairLess_byKey elements.zipIdx).imp fun h => Prod.Lex.monotone_fst _ _ h

theorem zipIdx_ascending : elements.zipIdx.Pairwise (fun a b => a.2 < b.2) := by
  rw [← List.pairwise_map (f := Prod.snd) (R := (· < ·)), List.zipIdx_map_snd]
  exact List.pairwise_lt_range'

/-- The sort leaves the entries of one value in the order of their indices. -/
private theorem sorted_pairs_filter (v : Bytes) :
    (S.sort Raw.pairLess elements.zipIdx).filter (fun p => p.1 = v) =
      elements.zipIdx.filter (fun p => p.1 = v) := by
  have hsorted := (S.sort_ascending pairLess_byKey elements.zipIdx).filter (fun p => p.1 = v)
  have hindices : (elements.zipIdx.filter (fun p => p.1 = v)).Pairwise (fun a b => toLex a ≤ toLex b) := by
    refine ((zipIdx_ascending elements).filter _).imp_of_mem fun {a b} ha hb hab => ?_
    have hav : a.1 = v := of_decide_eq_true (List.mem_filter.mp ha).2
    have hbv : b.1 = v := of_decide_eq_true (List.mem_filter.mp hb).2
    exact (Prod.Lex.toLex_lt_toLex.mpr (Or.inr ⟨hav.trans hbv.symm, hab⟩)).le
  exact ((S.perm _ _).filter _).eq_of_pairwise
    (fun a b _ _ hab hba => toLex.injective (le_antisymm hab hba)) hsorted hindices

private theorem length_filter_zipIdx (x : Bytes) (k : Nat) :
    ((elements.zipIdx k).filter (fun p => p.1 = x)).length = elements.count x := by
  induction elements generalizing k with
  | nil => rfl
  | cons y elements ih =>
    rw [List.zipIdx_cons, List.filter_cons]
    by_cases hyx : y = x
    · rw [if_pos (decide_eq_true hyx), List.length_cons, ih, hyx, List.count_cons_self]
    · rw [if_neg (by simpa using hyx), ih, List.count_cons_of_ne hyx]

/-- The place of an index among those of its value is the number of earlier ones. -/
private theorem mem_take_filter_zipIdx (x : Bytes) (i c : Nat) :
    (x, i) ∈ (elements.zipIdx.filter (fun p => p.1 = x)).take c ↔
      elements[i]? = some x ∧ (elements.take i).count x < c := by
  by_cases hx : elements[i]? = some x
  · obtain ⟨hi, hget⟩ := List.getElem?_eq_some_iff.mp hx
    have hcut : elements = elements.take i ++ x :: elements.drop (i + 1) := by
      rw [← hget, ← List.drop_eq_getElem_cons hi, List.take_append_drop]
    have hlength : (elements.take i).length = i := List.length_take_of_le hi.le
    have hzip : elements.zipIdx.filter (fun p => p.1 = x) =
        (elements.take i).zipIdx.filter (fun p => p.1 = x) ++
          (x, i) :: ((elements.drop (i + 1)).zipIdx (i + 1)).filter (fun p => p.1 = x) := by
      conv_lhs => rw [hcut, List.zipIdx_append, List.filter_append, hlength, List.zipIdx_cons,
        Nat.zero_add, List.filter_cons, if_pos (decide_eq_true rfl)]
    have hbefore : (x, i) ∉ (elements.take i).zipIdx.filter (fun p => p.1 = x) := by
      intro hmem
      have hlt := List.snd_lt_of_mem_zipIdx (List.mem_filter.mp hmem).1
      rw [hlength] at hlt
      exact absurd hlt (by simp)
    rw [hzip, List.take_append, List.mem_append, length_filter_zipIdx]
    refine ⟨fun hmem => ⟨hx, ?_⟩, fun ⟨_, hlt⟩ => Or.inr ?_⟩
    · by_contra hle
      rw [show c - (elements.take i).count x = 0 by omega, List.take_zero] at hmem
      rcases hmem with hmem | hmem
      · exact hbefore (List.mem_of_mem_take hmem)
      · cases hmem
    · rw [show c - (elements.take i).count x = c - (elements.take i).count x - 1 + 1 by omega,
        List.take_succ_cons]
      exact List.mem_cons_self ..
  · refine iff_of_false (fun hmem => hx ?_) (fun h => hx h.1)
    have hpair := (List.mem_filter.mp (List.mem_of_mem_take hmem)).1
    exact List.mem_zipIdx_iff_getElem?.mp hpair

/-- What `Intersect` returns: the indices of entries of the sorted list, of every value the
first ones. -/
private theorem exists_matched {raw : Raw} (hascending : raw.encrypted.Pairwise (· ≤ ·)) :
    ∃ matched : List (Bytes × Nat), matched.Sublist (S.sort Raw.pairLess elements.zipIdx) ∧
      raw.intersect S elements = matched.map Prod.snd ∧
      (∀ v, matched.filter (fun p => p.1 = v) =
        (elements.zipIdx.filter (fun p => p.1 = v)).take (raw.encrypted.count v)) ∧
      ∀ p ∈ matched, elements[p.2]? = some p.1 := by
  obtain ⟨matched, hsub, heq, hcount⟩ := customSetIntersection_spec (S.sort Raw.pairLess elements.zipIdx)
    raw.encrypted (sorted_pairs_ascending S elements) hascending
  refine ⟨matched, hsub, heq, fun v => by rw [hcount, sorted_pairs_filter], fun p hp => ?_⟩
  have hpair := (S.mem_sort Raw.pairLess elements.zipIdx p).mp (hsub.subset hp)
  exact List.mem_zipIdx_iff_getElem?.mp hpair

/-- The index of a client element is returned if fewer equal ones come before it than the
container holds. -/
theorem Raw.mem_intersect_iff {raw : Raw} (hascending : raw.encrypted.Pairwise (· ≤ ·)) (i : Nat) :
    i ∈ raw.intersect S elements ↔
      ∃ x, elements[i]? = some x ∧ (elements.take i).count x < raw.encrypted.count x := by
  obtain ⟨matched, -, heq, hcount, -⟩ := exists_matched S elements hascending
  rw [heq, List.mem_map]
  constructor
  · rintro ⟨⟨x, j⟩, hp, rfl⟩
    have hmem : (x, j) ∈ matched.filter (fun p => p.1 = x) :=
      List.mem_filter.mpr ⟨hp, decide_eq_true rfl⟩
    rw [hcount, mem_take_filter_zipIdx] at hmem
    exact ⟨x, hmem⟩
  · rintro ⟨x, hx⟩
    rw [← mem_take_filter_zipIdx, ← hcount] at hx
    exact ⟨(x, i), (List.mem_filter.mp hx).1, rfl⟩

/-- Entries of the sorted list are of different indices. -/
theorem nodup_indices {matched : List (Bytes × Nat)}
    (hsub : matched.Sublist (S.sort Raw.pairLess elements.zipIdx)) :
    (matched.map Prod.snd).Nodup := by
  refine (hsub.map Prod.snd).nodup ?_
  rw [((S.perm Raw.pairLess elements.zipIdx).map Prod.snd).nodup_iff, List.zipIdx_map_snd]
  exact List.nodup_range'

theorem Raw.nodup_intersect {raw : Raw} (hascending : raw.encrypted.Pairwise (· ≤ ·)) :
    (raw.intersect S elements).Nodup := by
  obtain ⟨matched, hsub, heq, -⟩ := exists_matched S elements hascending
  rw [heq]
  exact nodup_indices S elements hsub

private theorem mem_take_of_getElem? {elements : List Bytes} {x : Bytes} {i j : Nat}
    (hx : elements[i]? = some x) (h : i < j) : x ∈ elements.take j := by
  refine List.mem_of_getElem? (i := i) ?_
  rwa [List.getElem?_take_of_lt h]

/-- Against a container without repeats, the indices returned are as many as the
container's elements that the client has. -/
theorem Raw.length_intersect {raw : Raw} (hascending : raw.encrypted.Pairwise (· < ·)) :
    (raw.intersect S elements).length = raw.encrypted.countP (fun x => x ∈ elements) := by
  have hle : raw.encrypted.Pairwise (· ≤ ·) := hascending.imp le_of_lt
  have hnodup : raw.encrypted.Nodup := hascending.imp ne_of_lt
  have hmem (i : Nat) : i ∈ raw.intersect S elements ↔
      ∃ x, elements[i]? = some x ∧ x ∉ elements.take i ∧ x ∈ raw.encrypted := by
    rw [Raw.mem_intersect_iff S elements hle]
    refine exists_congr fun x => and_congr_right fun _ => ?_
    rw [hnodup.count]
    split <;> rename_i hx
    · rw [Nat.lt_one_iff, List.count_eq_zero]
      simp [hx]
    · simp [hx]
  have hvalues : ((raw.intersect S elements).map (fun i => elements.getD i [])).Perm
      (raw.encrypted.filter (fun x => x ∈ elements)) := by
    refine (List.perm_ext_iff_of_nodup ?_ (hnodup.filter _)).mpr fun x => ?_
    · refine (List.nodup_map_iff_inj_on (Raw.nodup_intersect S elements hle)).mpr ?_
      -- of two indices of one value the later one is not a first occurrence
      intro i hi j hj hij
      obtain ⟨x, hx, hfirst, -⟩ := (hmem i).mp hi
      obtain ⟨y, hy, hfirst', -⟩ := (hmem j).mp hj
      rw [List.getD_eq_getElem?_getD, List.getD_eq_getElem?_getD, hx, hy] at hij
      have hxy : x = y := hij
      subst hxy
      rcases Nat.lt_trichotomy i j with hlt | heq | hlt
      · exact absurd (mem_take_of_getElem? hx hlt) hfirst'
      · exact heq
      · exact absurd (mem_take_of_getElem? hy hlt) hfirst
    · simp only [List.mem_map, List.mem_filter, decide_eq_true_eq]
      constructor
      · rintro ⟨i, hi, rfl⟩
        obtain ⟨x, hx, -, hin⟩ := (hmem i).mp hi
        have hget : elements.getD i [] = x := by rw [List.getD_eq_getElem?_getD, hx, Option.getD_some]
        rw [hget]
        exact ⟨hin, List.mem_of_getElem? hx⟩
      · rintro ⟨hin, hx⟩
        have hidx := List.idxOf_lt_length_of_mem hx
        have hget : elements[elements.idxOf x]? = some x := List.getElem?_idxOf hx
        refine ⟨elements.idxOf x, (hmem _).mpr ⟨x, hget, ?_, hin⟩, ?_⟩
        · rw [List.mem_take_iff_idxOf_lt hx]
          exact lt_irrefl _
        · rw [List.getD_eq_getElem?_getD, hget, Option.getD_some]
  rw [List.countP_eq_length_filter, ← hvalues.length_eq, List.length_map]

/-- The returned indices that hold a value: as many as both sides have of it. -/
theorem Raw.count_intersect {raw : Raw} (hascending : raw.encrypted.Pairwise (· ≤ ·)) (v : Bytes) :
    (raw.intersect S elements).countP (fun i => elements[i]? = some v) =
      min (elements.count v) (raw.encrypted.count v) := by
  obtain ⟨matched, -, heq, hcount, hpair⟩ := exists_matched S elements hascending
  have hvalue : matched.countP (fun p => elements[p.2]? = some v) = matched.countP (fun p => p.1 = v) := by
    refine List.countP_congr fun p hp => ?_
    simp [hpair p hp]
  calc (raw.intersect S elements).countP (fun i => elements[i]? = some v)
      = matched.countP (fun p => elements[p.2]? = some v) := by
        rw [heq, List.countP_map]
        rfl
    _ = ((elements.zipIdx.filter (fun p => p.1 = v)).take (raw.encrypted.count v)).length := by
        rw [hvalue, List.countP_eq_length_filter, hcount]
    _ = min (elements.count v) (raw.encrypted.count v) := by
        rw [List.length_take, length_filter_zipIdx, min_comm]

/-- The indices come in the order of the sort: by value, equal values by index. -/
theorem Raw.intersect_ascending {raw : Raw} (hascending : raw.encrypted.Pairwise (· ≤ ·)) :
    (raw.intersect S elements).Pairwise (fun i j => elements.getD i [] < elements.getD j [] ∨
      elements.getD i [] = elements.getD j [] ∧ i < j) := by
  obtain ⟨matched, hsub, heq, -, hpair⟩ := exists_matched S elements hascending
  have hvalue : ∀ p ∈ matched, elements.getD p.2 [] = p.1 := fun p hp => by
    rw [List.getD_eq_getElem?_getD, hpair p hp, Option.getD_some]
  have hindices := nodup_indices S elements hsub
  rw [heq, List.pairwise_map]
  refine ((List.pairwise_map.mp hindices).and
    ((S.sort_ascending pairLess_byKey elements.zipIdx).sublist hsub)).imp_of_mem ?_
  rintro p q hp hq ⟨hne, hle⟩
  rw [hvalue p hp, hvalue q hq]
  rcases Prod.Lex.toLex_le_toLex.mp hle with hlt | ⟨heq, hle⟩
  · exact Or.inl hlt
  · exact Or.inr ⟨heq, lt_of_le_of_ne hle hne⟩

/-- Of an element that is returned, every earlier occurrence is. -/
theorem Raw.intersect_smallest {raw : Raw} (hascending : raw.encrypted.Pairwise (· ≤ ·)) {i j : Nat}
    (hi : i ∈ raw.intersect S elements) (hji : j < i) (hsame : elements[j]? = elements[i]?) :
    j ∈ raw.intersect S elements := by
  rw [Raw.mem_intersect_iff S elements hascending] at hi ⊢
  obtain ⟨x, hx, hcount⟩ := hi
  refine ⟨x, hsame.trans hx, lt_of_le_of_lt ?_ hcount⟩
  exact (List.take_sublist_take_left hji.le).count_le x

/-- Without repeats on the client's side, the indices of the elements the container holds. -/
theorem Raw.mem_intersect_of_nodup {raw : Raw} (hascending : raw.encrypted.Pairwise (· ≤ ·))
    (hnodup : elements.Nodup) (i : Nat) :
    i ∈ raw.intersect S elements ↔ ∃ x ∈ raw.encrypted, elements[i]? = some x := by
  rw [Raw.mem_intersect_iff S elements hascending]
  constructor
  · rintro ⟨x, hx, hcount⟩
    exact ⟨x, List.count_pos_iff.mp (Nat.zero_lt_of_lt hcount), hx⟩
  · rintro ⟨x, hmem, hx⟩
    obtain ⟨hi, rfl⟩ := List.getElem?_eq_some_iff.mp hx
    refine ⟨_, hx, ?_⟩
    rw [List.count_eq_zero_of_not_mem]
    · exact List.count_pos_iff.mpr hmem
    · intro hbefore
      obtain ⟨j, hj, heq⟩ := List.mem_iff_getElem.mp hbefore
      rw [List.length_take] at hj
      rw [List.getElem_take] at heq
      have hji : j = i := hnodup.getElem_inj_iff.mp heq
      omega

/-- `Intersect` over an ascending container is the multiset intersection, by first indices. -/
theorem Raw.intersect_is_multiset_intersection {raw : Raw}
    (hascending : raw.encrypted.Pairwise (· ≤ ·)) :
    (raw.intersect S elements).Nodup ∧
      (∀ v, (raw.intersect S elements).countP (fun i => elements[i]? = some v) =
        min (elements.count v) (raw.encrypted.count v)) ∧
      (∀ i ∈ raw.intersect S elements, i < elements.length ∧
        ∀ j < i, elements[j]? = elements[i]? → j ∈ raw.intersect S elements) ∧
      (raw.intersect S elements).Pairwise (fun i j => elements.getD i [] < elements.getD j [] ∨
        elements.getD i [] = elements.getD j [] ∧ i < j) ∧
      (elements.Nodup → ∀ i, i ∈ raw.intersect S elements ↔
        ∃ x ∈ raw.encrypted, elements[i]? = some x) ∧
      (raw.encrypted.Pairwise (· < ·) →
        (raw.intersect S elements).length = raw.encrypted.countP (fun x => x ∈ elements)) := by
  refine ⟨nodup_intersect S elements hascending, count_intersect S elements hascending, ?_,
    intersect_ascending S elements hascending, mem_intersect_of_nodup S elements hascending,
    length_intersect S elements⟩
  intro i hi
  obtain ⟨x, hx, -⟩ := (mem_intersect_iff S elements hascending i).mp hi
  exact ⟨(List.getElem?_eq_some_iff.mp hx).1,
    fun j hji hsame => intersect_smallest S elements hascending hi hji hsame⟩

/-- A client that repeats an element the server holds once. -/
theorem Raw.intersect_is_multiset_intersection_repeated :
    (Raw.intersect .insertion ⟨[[1], [2], [3]]⟩ [[2], [1], [2]]).Nodup ∧
      ∀ v : Bytes, (Raw.intersect .insertion ⟨[[1], [2], [3]]⟩ [[2], [1], [2]]).countP
          (fun i => [[2], [1], [2]][i]? = some v) =
        min ([[2], [1], [2]].count v) ([[1], [2], [3]].count v) :=
  have h := intersect_is_multiset_intersection .insertion [[2], [1], [2]]
    (show (Raw.mk [[1], [2], [3]]).encrypted.Pairwise (· ≤ ·) by decide)
  ⟨h.1, h.2.1⟩

end Pairs

end PrivateSetIntersection
