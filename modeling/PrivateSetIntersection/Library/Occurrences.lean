import Mathlib

/-! The places of a list that a second list has an element for, one each: the first ones of
every value, as many as the second list has of it. They make up the multiset intersection. -/
namespace Library.Occurrences
variable {α β : Type}

section Intersection
variable [DecidableEq α] {s t : Multiset α} {x : α}

theorem cons_inter_of_lt (h : s.count x < t.count x) : (x ::ₘ s) ∩ t = x ::ₘ (s ∩ t) := by
  ext v
  rw [Multiset.count_inter, Multiset.count_cons, Multiset.count_cons, Multiset.count_inter]
  split <;> rename_i hv
  · rw [hv]
    omega
  · rfl

theorem cons_inter_of_le (h : t.count x ≤ s.count x) : (x ::ₘ s) ∩ t = s ∩ t := by
  ext v
  rw [Multiset.count_inter, Multiset.count_cons, Multiset.count_inter]
  split <;> rename_i hv
  · rw [hv]
    omega
  · rfl

end Intersection

variable [BEq α]

/-- Place `i` of `xs` has an element left in `ys` when the places before it took theirs. -/
def Within (xs ys : List α) (i : Nat) : Prop := ∃ x, xs[i]? = some x ∧ (xs.take i).count x < ys.count x

theorem within_append_left {xs ys : List α} {i : Nat} (h : i < xs.length) (zs : List α) :
    Within (xs ++ zs) ys i ↔ Within xs ys i := by
  rw [Within, Within, List.getElem?_append_left h, List.take_append_of_le_length h.le]

theorem within_length_concat (xs ys : List α) (x : α) :
    Within (xs ++ [x]) ys xs.length ↔ xs.count x < ys.count x := by
  rw [Within, List.getElem?_concat_length, List.take_left]
  constructor
  · rintro ⟨_, ⟨⟩, h⟩
    exact h
  · exact fun h => ⟨x, rfl, h⟩

variable [LawfulBEq α]

section Card
variable [DecidableEq α]

open Classical in
/-- The places are as many as the intersection has elements. -/
theorem card_within (xs ys : List α) :
    ((List.range xs.length).filter (fun i => Within xs ys i)).length = ((xs : Multiset α) ∩ ys).card := by
  obtain rfl : ‹BEq α› = instBEqOfDecidableEq := lawful_beq_subsingleton _ _
  induction xs using List.reverseRecOn with
  | nil => simp
  | append_singleton xs x ih =>
    have hbefore : (List.range xs.length).filter (fun i => Within (xs ++ [x]) ys i) =
        (List.range xs.length).filter (fun i => Within xs ys i) := by
      refine List.filter_congr fun i hi => ?_
      rw [within_append_left (List.mem_range.mp hi)]
    have hcons : ((xs ++ [x] : List α) : Multiset α) = x ::ₘ (xs : Multiset α) :=
      Multiset.coe_eq_coe.mpr (List.perm_append_singleton x xs)
    rw [List.length_append, List.length_singleton, List.range_succ, List.filter_append, List.length_append,
      hbefore, ih, hcons, List.filter_singleton, within_length_concat]
    by_cases h : xs.count x < ys.count x
    · rw [cons_inter_of_lt (by simpa using h), Multiset.card_cons]
      simp [h]
    · rw [cons_inter_of_le (by simpa using h)]
      simp [h]

theorem length_of_mem_iff {xs ys : List α} {indices : List Nat} (hnodup : indices.Nodup)
    (h : ∀ i, i ∈ indices ↔ Within xs ys i) : indices.length = ((xs : Multiset α) ∩ ys).card := by
  classical
  rw [← card_within]
  refine ((List.perm_ext_iff_of_nodup hnodup (List.nodup_range.filter _)).mpr fun i => ?_).length_eq
  rw [h, List.mem_filter, List.mem_range, decide_eq_true_eq]
  constructor
  · rintro ⟨x, hx, hcount⟩
    exact ⟨(List.getElem?_eq_some_iff.mp hx).1, x, hx, hcount⟩
  · exact And.right

end Card

theorem exists_within {xs ys : List α} {x : α} (hxs : x ∈ xs) (hys : x ∈ ys) :
    ∃ i, xs[i]? = some x ∧ Within xs ys i := by
  obtain ⟨before, after, rfl, hbefore⟩ := List.eq_append_cons_of_mem hxs
  have hfirst : (before ++ x :: after)[before.length]? = some x := by simp
  refine ⟨before.length, hfirst, x, hfirst, ?_⟩
  rw [List.take_left, List.count_eq_zero_of_not_mem hbefore]
  exact List.count_pos_iff.mpr hys

variable [BEq β] [LawfulBEq β]

theorem count_map_of_injOn {f : α → β} {xs : List α} {x : α} (h : ∀ y ∈ xs, f y = f x → y = x) :
    (xs.map f).count (f x) = xs.count x := by
  rw [List.count, List.countP_map]
  refine List.countP_congr fun y hy => ?_
  simp only [Function.comp_apply, beq_iff_eq]
  exact ⟨h y hy, congrArg f⟩

/-- Renaming the values of both lists apart leaves the places. -/
theorem within_map {f : α → β} {xs ys : List α}
    (hf : ∀ x y, x ∈ xs ∨ x ∈ ys → y ∈ xs ∨ y ∈ ys → f x = f y → x = y) (i : Nat) :
    Within (xs.map f) (ys.map f) i ↔ Within xs ys i := by
  have hcount {x : α} (hx : x ∈ xs) :
      ((xs.map f).take i).count (f x) = (xs.take i).count x ∧ (ys.map f).count (f x) = ys.count x := by
    rw [← List.map_take]
    exact ⟨count_map_of_injOn fun y hy => hf y x (Or.inl (List.mem_of_mem_take hy)) (Or.inl hx),
      count_map_of_injOn fun y hy => hf y x (Or.inr hy) (Or.inl hx)⟩
  constructor
  · rintro ⟨_, hget, hlt⟩
    rw [List.getElem?_map] at hget
    obtain ⟨x, hx, rfl⟩ := Option.map_eq_some_iff.mp hget
    obtain ⟨htake, hall⟩ := hcount (List.mem_of_getElem? hx)
    rw [htake, hall] at hlt
    exact ⟨x, hx, hlt⟩
  · rintro ⟨x, hx, hlt⟩
    obtain ⟨htake, hall⟩ := hcount (List.mem_of_getElem? hx)
    refine ⟨f x, ?_, ?_⟩
    · rw [List.getElem?_map, hx, Option.map_some]
    · rwa [htake, hall]

theorem card_map_inter [DecidableEq α] [DecidableEq β] {f : α → β} {xs ys : List α}
    (hf : ∀ x y, x ∈ xs ∨ x ∈ ys → y ∈ xs ∨ y ∈ ys → f x = f y → x = y) :
    ((xs.map f : List β) ∩ (ys.map f : List β) : Multiset β).card = ((xs : Multiset α) ∩ ys).card := by
  classical
  rw [← card_within, ← card_within, List.length_map]
  refine congrArg List.length (List.filter_congr fun i _ => ?_)
  rw [within_map hf]

end Library.Occurrences
