import PrivateSetIntersection.Datastructure.AssociationTable
import PrivateSetIntersection.Datastructure.RawIntersection

/-! `Raw` over elements in any order, as a server may send them: the merges still return,
and what they report are matches, each once. -/
namespace PrivateSetIntersection
open Library

namespace Raw

/-- Pairs of equal elements in the rows from `i` up to `i'`, no pair twice. -/
structure Matches (decrypted encrypted : List Bytes) (permutation : List Nat) (i i' : Nat)
    (pairs : List (Nat × Nat)) : Prop where
  sound : ∀ p ∈ pairs, ∃ k x, i ≤ k ∧ k < i' ∧ permutation[k]? = some p.1 ∧
    decrypted[k]? = some x ∧ encrypted[p.2]? = some x
  nodup : pairs.Nodup

section Merge
variable {decrypted encrypted : List Bytes} {permutation : List Nat} {i i' i'' : Nat}
  {pairs more : List (Nat × Nat)}

theorem Matches.nil (i i' : Nat) : Matches decrypted encrypted permutation i i' [] :=
  ⟨fun _ hp => absurd hp List.not_mem_nil, .nil⟩

theorem Matches.mono {a b : Nat} (h : Matches decrypted encrypted permutation i i' pairs) (ha : a ≤ i)
    (hb : i' ≤ b) : Matches decrypted encrypted permutation a b pairs where
  sound p hp := by
    obtain ⟨k, x, hik, hki, hmatch⟩ := h.sound p hp
    exact ⟨k, x, ha.trans hik, hki.trans_le hb, hmatch⟩
  nodup := h.nodup

/-- Rows further down name other response indices. -/
theorem Matches.append (hnodup : permutation.Nodup)
    (h : Matches decrypted encrypted permutation i i' pairs)
    (h' : Matches decrypted encrypted permutation i' i'' more) (hi : i ≤ i') (hi' : i' ≤ i'') :
    Matches decrypted encrypted permutation i i'' (pairs ++ more) where
  sound p hp := by
    rcases List.mem_append.mp hp with hp | hp
    · exact (h.mono (Nat.le_refl i) hi').sound p hp
    · exact (h'.mono hi (Nat.le_refl i'')).sound p hp
  nodup := by
    refine List.nodup_append.mpr ⟨h.nodup, h'.nodup, ?_⟩
    rintro p hp q hq rfl
    obtain ⟨k, x, -, hki, hk, -⟩ := h.sound p hp
    obtain ⟨l, y, hil, -, hl, -⟩ := h'.sound p hq
    have hkl : k = l :=
      (List.getElem?_inj (List.getElem?_eq_some_iff.mp hk).1 hnodup).mp (hk.trans hl.symm)
    omega

/-- A run of elements equal to `decrypted[i]` is part of its row. -/
theorem Matches.row {j j' a : Nat} {x : Bytes} (ha : permutation[i]? = some a)
    (hx : decrypted[i]? = some x) (hin : ∀ k, j ≤ k → k < j' → encrypted[k]? = some x) :
    Matches decrypted encrypted permutation i (i + 1)
      ((List.range' j (j' - j)).map (fun j => (a, j))) where
  sound p hp := by
    obtain ⟨k, hk, rfl⟩ := List.mem_map.mp hp
    rw [List.mem_range'_1] at hk
    exact ⟨i, x, Nat.le_refl i, Nat.lt_succ_self i, ha, hx, hin k hk.1 (by omega)⟩
  nodup := List.Nodup.map (fun _ _ h => (Prod.mk.inj h).2) List.nodup_range'

variable (hnodup : permutation.Nodup) (hlen : permutation.length = decrypted.length)
include hnodup hlen

/-- The `while (true)` emits matches of the rows it passes, and moves both cursors. -/
theorem emitRun_matches {i j : Nat} {x : Bytes} (hx : decrypted[i]? = some x)
    (hj : encrypted[j]? = some x) (out : List Nat × List Nat) :
    ∃ i' j' pairs, emitRun decrypted encrypted permutation j x i j out = some (i', j', emit out pairs) ∧
      i < i' ∧ i' ≤ decrypted.length ∧ j < j' ∧ j' ≤ encrypted.length ∧
      Matches decrypted encrypted permutation i i' pairs := by
  obtain ⟨hi, -⟩ := List.getElem?_eq_some_iff.mp hx
  induction hn : decrypted.length - i generalizing i out with
  | zero => omega
  | succ n ih =>
    have ha : permutation[i]? = some (permutation.getD i 0) := by
      rw [List.getD_eq_getElem _ _ (by omega), List.getElem?_eq_getElem]
    obtain ⟨j', hrow, hjj', hj', hin, -⟩ := emitRow_spec ha hx hj out
    have hmatches := Matches.row ha hx hin
    rw [emitRun, hrow]
    simp only [Option.bind_eq_bind, Option.bind_some]
    split <;> rename_i hnext
    · split <;> rename_i heq
      · have hx' : decrypted[i + 1]? = some x := by rw [List.getElem?_eq_getElem hnext, heq]
        obtain ⟨i', j'', pairs, hrun, hii', hi', hjj'', hj'', hrest⟩ := ih hx' _ hnext (by omega)
        exact ⟨i', j'', _, by rw [hrun, emit_emit], by omega, hi', hjj'', hj'',
          hmatches.append hnodup hrest (Nat.le_succ i) hii'.le⟩
      · exact ⟨i + 1, j', _, rfl, Nat.lt_succ_self i, hi, hjj', hj', hmatches⟩
    · exact ⟨i + 1, j', _, rfl, Nat.lt_succ_self i, hi, hjj', hj', hmatches⟩

/-- Every turn of the outer loop moves `i` or `j` on, so it ends, having emitted matches. -/
theorem associate_matches (fuel i j : Nat) (hi : i ≤ decrypted.length) (hj : j ≤ encrypted.length)
    (hfuel : decrypted.length + encrypted.length < fuel + i + j) (out : List Nat × List Nat) :
    ∃ pairs, associate decrypted encrypted permutation fuel i j out = some (emit out pairs) ∧
      Matches decrypted encrypted permutation i decrypted.length pairs := by
  induction fuel generalizing i j out with
  | zero => omega
  | succ fuel ih =>
    rw [associate]
    split <;> rename_i hin
    · obtain ⟨hil, hjl⟩ := hin
      obtain ⟨i₁, hadvance, hii₁, hi₁, -, hstop⟩ := advanceDecrypted_spec decrypted i hjl
      simp only [hadvance, Option.bind_eq_bind, Option.bind_some, List.getElem?_eq_getElem hjl]
      split <;> rename_i hend
      · exact ⟨[], by rw [emit_nil]; rfl, Matches.nil _ _⟩
      · have hi₁l : i₁ < decrypted.length := by omega
        simp only [List.getElem?_eq_getElem hi₁l, Option.bind_some]
        split <;> rename_i hequal
        · obtain ⟨i₂, j₂, pairs, hrun, hi₁₂, hi₂, hjj₂, hj₂, hmatches⟩ :=
            emitRun_matches hnodup hlen (hequal ▸ List.getElem?_eq_getElem hi₁l)
              (List.getElem?_eq_getElem hjl) out
          obtain ⟨hj₂₃, hj₃, -, -⟩ := advanceEncrypted_spec decrypted encrypted i₂ j₂
          obtain ⟨more, hrest, hmore⟩ := ih i₂ (advanceEncrypted decrypted encrypted i₂ j₂) hi₂
            (by omega) (by omega) (emit out pairs)
          simp only [hrun, Option.bind_some, hrest, emit_emit]
          exact ⟨_, rfl, (hmatches.append hnodup hmore hi₁₂.le hi₂).mono hii₁ (Nat.le_refl _)⟩
        · -- the cursors differ, so `decrypted[i]` is the larger one and `j` moves
          have hgreater : encrypted[j] < decrypted[i₁] := lt_of_le_of_ne (hstop hi₁l) (Ne.symm hequal)
          obtain ⟨-, hbound, -, hprogress⟩ := advanceEncrypted_spec decrypted encrypted i₁ j
          have hmoved := hprogress hjl hi₁l hgreater
          obtain ⟨more, hrest, hmore⟩ := ih i₁ (advanceEncrypted decrypted encrypted i₁ j) hi₁l.le
            (by omega) (by omega) out
          exact ⟨more, hrest, hmore.mono hii₁ (Nat.le_refl _)⟩
    · exact ⟨[], by rw [emit_nil], Matches.nil _ _⟩

end Merge

section Sound
variable (S : ComparisonSort) (raw : Raw)

theorem getAssociationTable_sound (decrypted : List Bytes) :
    ∃ table, raw.getAssociationTable S decrypted = some table ∧ table.1.length = table.2.length ∧
      (table.1.zip table.2).Nodup ∧
      ∀ p ∈ table.1.zip table.2, ∃ x, decrypted[p.1]? = some x ∧ raw.encrypted[p.2]? = some x := by
  have hperm := sortingPermutation_perm S decrypted
  obtain ⟨pairs, hassociate, hmatches⟩ := associate_matches (hperm.nodup_iff.mpr List.nodup_range)
    (length_arrange decrypted (sortingPermutation S decrypted)).symm
    ((arrange decrypted (sortingPermutation S decrypted)).length + raw.encrypted.length + 1) 0 0
    (Nat.zero_le _) (Nat.zero_le raw.encrypted.length) (by omega) ([], [])
  rw [← getAssociationTable_eq] at hassociate
  refine ⟨_, hassociate, by simp [emit], ?_⟩
  rw [zip_emit]
  refine ⟨hmatches.nodup, fun p hp => ?_⟩
  obtain ⟨k, x, -, -, hk, hx, hencrypted⟩ := hmatches.sound p hp
  have hlt : k < decrypted.length := by
    rw [← length_of_perm_range hperm]
    exact (List.getElem?_eq_some_iff.mp hk).1
  rw [getElem?_origin hperm hlt, Option.some.injEq] at hk
  rw [getElem?_arrange decrypted hperm hlt, hk] at hx
  exact ⟨x, hx, hencrypted⟩

/-- Whatever the order of the second list, the merge keeps entries of the first whose
values are in the second. -/
theorem customSetIntersection_sound (first : List (Bytes × Nat)) (second : List Bytes) :
    ∃ matched : List (Bytes × Nat), matched.Sublist first ∧
      customSetIntersection first second = matched.map Prod.snd ∧ ∀ p ∈ matched, p.1 ∈ second := by
  fun_induction customSetIntersection first second with
  | case1 second => exact ⟨[], List.Sublist.refl _, rfl, fun _ hp => absurd hp List.not_mem_nil⟩
  | case2 first => exact ⟨[], List.nil_sublist _, rfl, fun _ hp => absurd hp List.not_mem_nil⟩
  | case3 x i first y second hless ih =>
    obtain ⟨matched, hsub, heq, hmem⟩ := ih
    exact ⟨matched, hsub.cons _, heq, hmem⟩
  | case4 x i first y second hless hgreater ih =>
    obtain ⟨matched, hsub, heq, hmem⟩ := ih
    refine ⟨(x, i) :: matched, hsub.cons_cons _, by rw [heq, List.map_cons], ?_⟩
    rw [List.forall_mem_cons]
    refine ⟨?_, fun p hp => List.mem_cons_of_mem y (hmem p hp)⟩
    rw [le_antisymm (not_lt.mp hgreater) (not_lt.mp hless)]
    exact List.mem_cons_self
  | case5 x i first y second hless hgreater ih =>
    obtain ⟨matched, hsub, heq, hmem⟩ := ih
    exact ⟨matched, hsub, heq, fun p hp => List.mem_cons_of_mem y (hmem p hp)⟩

theorem intersect_sound (elements : List Bytes) :
    (raw.intersect S elements).Nodup ∧
      ∀ i ∈ raw.intersect S elements, ∃ x ∈ raw.encrypted, elements[i]? = some x := by
  obtain ⟨matched, hsub, heq, hmem⟩ :=
    customSetIntersection_sound (S.sort pairLess elements.zipIdx) raw.encrypted
  rw [intersect, heq]
  constructor
  · exact nodup_indices S elements hsub
  · intro i hi
    obtain ⟨p, hp, rfl⟩ := List.mem_map.mp hi
    have hpair := (S.mem_sort pairLess elements.zipIdx p).mp (hsub.subset hp)
    exact ⟨p.1, hmem p hp, List.mem_zipIdx_iff_getElem?.mp hpair⟩

/-- A received container, sorted or not: both ways of matching return, report matches only,
and none of them twice. -/
theorem untrusted_setup_sound (S : ComparisonSort) (received decrypted : List Bytes) :
    ∃ raw : Raw, createFromProtobuf (.raw ⟨received⟩) = .ok raw ∧ raw.encrypted = received ∧
      (∃ table, raw.getAssociationTable S decrypted = some table ∧ table.1.length = table.2.length ∧
        (table.1.zip table.2).Nodup ∧
        ∀ p ∈ table.1.zip table.2, ∃ x, decrypted[p.1]? = some x ∧ received[p.2]? = some x) ∧
      (raw.intersect S decrypted).Nodup ∧
      ∀ i ∈ raw.intersect S decrypted, ∃ x ∈ received, decrypted[i]? = some x :=
  ⟨⟨received⟩, rfl, rfl, getAssociationTable_sound S ⟨received⟩ decrypted,
    intersect_sound S ⟨received⟩ decrypted⟩

end Sound

end Raw
end PrivateSetIntersection
