import PrivateSetIntersection.Datastructure.CycleRewrite

/-! The merge of `GetAssociationTable` over two ascending lists emits, for every decrypted
element in turn, one pair for each encrypted element equal to it. -/
namespace PrivateSetIntersection
open Library

namespace Raw

def emit (out : List Nat × List Nat) (pairs : List (Nat × Nat)) : List Nat × List Nat :=
  (out.1 ++ pairs.map Prod.fst, out.2 ++ pairs.map Prod.snd)

@[simp] theorem emit_nil (out : List Nat × List Nat) : emit out [] = out := by simp [emit]

@[simp] theorem emit_emit (out : List Nat × List Nat) (first second : List (Nat × Nat)) :
    emit (emit out first) second = emit out (first ++ second) := by simp [emit]

theorem zip_emit (pairs : List (Nat × Nat)) :
    (emit ([], []) pairs).1.zip (emit ([], []) pairs).2 = pairs := by
  simp only [emit, List.nil_append]
  rw [← List.unzip_fst, ← List.unzip_snd, List.zip_unzip]

theorem emit_singleton (out : List Nat × List Nat) (a j : Nat) :
    emit out [(a, j)] = (out.1 ++ [a], out.2 ++ [j]) := rfl

/-- The pairs of response index `r`: one for every place of its element `x`. -/
def tableRow (encrypted : List Bytes) (x : Bytes) (r : Nat) : List (Nat × Nat) :=
  ((List.range encrypted.length).filter (fun j => encrypted[j]? = some x)).map (fun j => (r, j))

section Row
variable {encrypted : List Bytes} {x : Bytes}

theorem tableRow_eq_nil (h : x ∉ encrypted) (r : Nat) : tableRow encrypted x r = [] := by
  rw [tableRow, List.map_eq_nil_iff, List.filter_eq_nil_iff]
  intro j _ hj
  exact h (List.mem_of_getElem? (of_decide_eq_true hj))

/-- Where the places of an element are a range, its row is that range. -/
theorem tableRow_eq_range {a b : Nat} (hab : a ≤ b) (hb : b ≤ encrypted.length)
    (hin : ∀ j, a ≤ j → j < b → encrypted[j]? = some x)
    (hout : ∀ j, j < a ∨ b ≤ j → encrypted[j]? ≠ some x) (r : Nat) :
    tableRow encrypted x r = (List.range' a (b - a)).map (fun j => (r, j)) := by
  have hlow : List.range' 0 a ++ List.range' a (b - a) = List.range' 0 b := by
    have h := @List.range'_append_1 0 a (b - a)
    rwa [Nat.zero_add, Nat.add_sub_cancel' hab] at h
  have hall : List.range' 0 b ++ List.range' b (encrypted.length - b) =
      List.range' 0 encrypted.length := by
    have h := @List.range'_append_1 0 b (encrypted.length - b)
    rwa [Nat.zero_add, Nat.add_sub_cancel' hb] at h
  have hbefore : (List.range' 0 a).filter (fun j => encrypted[j]? = some x) = [] := by
    rw [List.filter_eq_nil_iff]
    intro j hj hx
    rw [List.mem_range'_1] at hj
    exact hout j (Or.inl (by omega)) (of_decide_eq_true hx)
  have hafter : (List.range' b (encrypted.length - b)).filter (fun j => encrypted[j]? = some x) = [] := by
    rw [List.filter_eq_nil_iff]
    intro j hj hx
    rw [List.mem_range'_1] at hj
    exact hout j (Or.inr hj.1) (of_decide_eq_true hx)
  have hwithin : (List.range' a (b - a)).filter (fun j => encrypted[j]? = some x) =
      List.range' a (b - a) := by
    rw [List.filter_eq_self]
    intro j hj
    rw [List.mem_range'_1] at hj
    exact decide_eq_true (hin j hj.1 (by omega))
  rw [tableRow, List.range_eq_range', ← hall, ← hlow, List.filter_append, List.filter_append, hbefore,
    hwithin, hafter, List.nil_append, List.append_nil]

end Row

section Loops
variable {decrypted encrypted : List Bytes} {permutation : List Nat}

theorem advanceDecrypted_spec (decrypted : List Bytes) (i : Nat) {j : Nat} (hj : j < encrypted.length) :
    ∃ i', advanceDecrypted decrypted encrypted j i = some i' ∧ i ≤ i' ∧ i' ≤ max i decrypted.length ∧
      (∀ k (hk : k < decrypted.length), i ≤ k → k < i' → decrypted[k] < encrypted[j]) ∧
      ∀ h : i' < decrypted.length, encrypted[j] ≤ decrypted[i'] := by
  induction hn : decrypted.length - i generalizing i with
  | zero =>
    rw [advanceDecrypted, dif_neg (by omega)]
    exact ⟨i, rfl, Nat.le_refl i, Nat.le_max_left _ _, fun k _ hk hk' => absurd hk (Nat.not_le.mpr hk'),
      fun h => by omega⟩
  | succ n ih =>
    have hi : i < decrypted.length := by omega
    rw [advanceDecrypted, dif_pos hi, List.getElem?_eq_getElem hj]
    dsimp only
    split <;> rename_i hless
    · obtain ⟨i', heq, hle, hbound, hbelow, hstop⟩ := ih (i + 1) (by omega)
      refine ⟨i', heq, by omega, by omega, fun k hk hik hki => ?_, hstop⟩
      rcases Nat.eq_or_lt_of_le hik with rfl | hik
      · exact hless
      · exact hbelow k hk hik hki
    · exact ⟨i, rfl, Nat.le_refl i, Nat.le_max_left _ _,
        fun k _ hk hk' => absurd hk (Nat.not_le.mpr hk'), fun _ => not_lt.mp hless⟩

/-- `++j` stops at the first encrypted element not below `decrypted[i]`, if there is one. -/
theorem advanceEncrypted_spec (decrypted encrypted : List Bytes) (i j : Nat) :
    j ≤ advanceEncrypted decrypted encrypted i j ∧
      advanceEncrypted decrypted encrypted i j ≤ max j encrypted.length ∧
      (∀ k (hk : k < encrypted.length) (hi : i < decrypted.length), j ≤ k →
        k < advanceEncrypted decrypted encrypted i j → encrypted[k] < decrypted[i]) ∧
      ∀ (hj : j < encrypted.length) (hi : i < decrypted.length), encrypted[j] < decrypted[i] →
        j < advanceEncrypted decrypted encrypted i j := by
  induction hn : encrypted.length - j generalizing j with
  | zero =>
    rw [advanceEncrypted, dif_neg (by omega)]
    exact ⟨Nat.le_refl j, Nat.le_max_left _ _, fun k _ _ hk hk' => absurd hk (Nat.not_le.mpr hk'),
      fun h => by omega⟩
  | succ n ih =>
    have hj : j < encrypted.length := by omega
    by_cases hi : i < decrypted.length
    · rw [advanceEncrypted, dif_pos ⟨hj, hi⟩]
      split <;> rename_i hgreater
      · obtain ⟨hle, hbound, hbelow, -⟩ := ih (j + 1) (by omega)
        refine ⟨by omega, by omega, fun k hk _ hjk hkj => ?_, fun _ _ _ => by omega⟩
        rcases Nat.eq_or_lt_of_le hjk with rfl | hjk
        · exact hgreater
        · exact hbelow k hk hi hjk hkj
      · exact ⟨Nat.le_refl j, Nat.le_max_left _ _, fun k _ _ hk hk' => absurd hk (Nat.not_le.mpr hk'),
          fun _ _ h => absurd h hgreater⟩
    · rw [advanceEncrypted, dif_neg (fun h => hi h.2)]
      exact ⟨Nat.le_refl j, Nat.le_max_left _ _, fun k _ h => absurd h hi, fun _ h => absurd h hi⟩

/-- The `do ... while` pairs `decrypted[i]` with the run of elements equal to it from `j` on. -/
theorem emitRow_spec {i j a : Nat} {x : Bytes} (ha : permutation[i]? = some a)
    (hx : decrypted[i]? = some x) (hj : encrypted[j]? = some x) (out : List Nat × List Nat) :
    ∃ j', emitRow decrypted encrypted permutation i j out =
        some (j', emit out ((List.range' j (j' - j)).map (fun j => (a, j)))) ∧
      j < j' ∧ j' ≤ encrypted.length ∧ (∀ k, j ≤ k → k < j' → encrypted[k]? = some x) ∧
      encrypted[j']? ≠ some x := by
  obtain ⟨hlt, -⟩ := List.getElem?_eq_some_iff.mp hj
  induction hn : encrypted.length - j generalizing j out with
  | zero => omega
  | succ n ih =>
    have hone : (List.range' j (j + 1 - j)).map (fun j => (a, j)) = [(a, j)] := by
      rw [Nat.add_sub_cancel_left]
      rfl
    have hstop : ∀ k, j ≤ k → k < j + 1 → encrypted[k]? = some x := fun k hk hk' => by
      rwa [show k = j by omega]
    rw [emitRow]
    simp only [ha, hx, Option.bind_eq_bind, Option.bind_some, ← emit_singleton]
    split <;> rename_i hnext
    · split <;> rename_i heq
      · have hj' : encrypted[j + 1]? = some x := by rw [List.getElem?_eq_getElem hnext, ← heq]
        obtain ⟨j', hrow, hjj', hbound, hin, hout⟩ := ih hj' (emit out [(a, j)]) hnext (by omega)
        refine ⟨j', ?_, by omega, hbound, fun k hk hk' => ?_, hout⟩
        · rw [hrow, emit_emit, show j' - j = j' - (j + 1) + 1 by omega, List.range'_succ, List.map_cons]
          rfl
        · rcases Nat.eq_or_lt_of_le hk with rfl | hk
          · exact hj
          · exact hin k hk hk'
      · refine ⟨j + 1, by rw [hone], Nat.lt_succ_self j, hlt, hstop, ?_⟩
        rw [List.getElem?_eq_getElem hnext]
        exact fun h => heq (Option.some.inj h).symm
    · refine ⟨j + 1, by rw [hone], Nat.lt_succ_self j, hlt, hstop, ?_⟩
      rw [List.getElem?_eq_none (by omega)]
      exact nofun

variable (decrypted encrypted permutation)

/-- The pairs of the `i`-th decrypted element in ascending order. -/
def rowAt (i : Nat) : List (Nat × Nat) :=
  tableRow encrypted (decrypted.getD i []) (permutation.getD i 0)

def rowsBetween (i i' : Nat) : List (Nat × Nat) :=
  (List.range' i (i' - i)).flatMap (rowAt decrypted encrypted permutation)

variable {decrypted encrypted permutation}

private theorem rowsBetween_append {i i' i'' : Nat} (h : i ≤ i') (h' : i' ≤ i'') :
    rowsBetween decrypted encrypted permutation i i' ++ rowsBetween decrypted encrypted permutation i' i'' =
      rowsBetween decrypted encrypted permutation i i'' := by
  have hrange := @List.range'_append_1 i (i' - i) (i'' - i')
  rw [Nat.add_sub_cancel' h, show i' - i + (i'' - i') = i'' - i by omega] at hrange
  rw [rowsBetween, rowsBetween, ← List.flatMap_append, hrange, rowsBetween]

private theorem rowsBetween_succ (i : Nat) :
    rowsBetween decrypted encrypted permutation i (i + 1) = rowAt decrypted encrypted permutation i := by
  rw [rowsBetween, Nat.add_sub_cancel_left, List.range'_one, List.flatMap_singleton]

private theorem rowsBetween_eq_nil {i i' : Nat}
    (h : ∀ k, i ≤ k → k < i' → decrypted.getD k [] ∉ encrypted) :
    rowsBetween decrypted encrypted permutation i i' = [] := by
  rw [rowsBetween, List.flatMap_eq_nil_iff]
  intro k hk
  rw [List.mem_range'_1] at hk
  exact tableRow_eq_nil (h k hk.1 (by omega)) _

variable (hencrypted : encrypted.Pairwise (· ≤ ·))
include hencrypted

theorem le_of_getElem? {k k' : Nat} {x y : Bytes} (hx : encrypted[k]? = some x)
    (hy : encrypted[k']? = some y) (h : k ≤ k') : x ≤ y := by
  obtain ⟨hk, rfl⟩ := List.getElem?_eq_some_iff.mp hx
  obtain ⟨hk', rfl⟩ := List.getElem?_eq_some_iff.mp hy
  rcases Nat.eq_or_lt_of_le h with rfl | h
  · exact le_refl _
  · exact List.pairwise_iff_getElem.mp hencrypted k k' hk hk' h

/-- The run of equal elements is the whole row, as the list is ascending. -/
private theorem tableRow_of_run {j j' : Nat} {x : Bytes} (hjj' : j < j') (hj' : j' ≤ encrypted.length)
    (hin : ∀ k, j ≤ k → k < j' → encrypted[k]? = some x) (hout : encrypted[j']? ≠ some x)
    (hbelow : ∀ k (hk : k < encrypted.length), k < j → encrypted[k] < x) (r : Nat) :
    tableRow encrypted x r = (List.range' j (j' - j)).map (fun k => (r, k)) := by
  refine tableRow_eq_range hjj'.le hj' hin (fun k hk hkx => ?_) r
  rcases hk with hk | hk
  · obtain ⟨hlt, rfl⟩ := List.getElem?_eq_some_iff.mp hkx
    exact lt_irrefl _ (hbelow k hlt hk)
  · obtain ⟨hlt, -⟩ := List.getElem?_eq_some_iff.mp hkx
    have hstop : encrypted[j']? = some encrypted[j'] := List.getElem?_eq_getElem _
    refine hout (hstop.trans (congrArg some (le_antisymm ?_ ?_)))
    · exact le_of_getElem? hencrypted hstop hkx hk
    · exact le_of_getElem? hencrypted (hin j (Nat.le_refl j) hjj') hstop hjj'.le

/-- The `while (true)` pairs every decrypted element equal to `firstEncrypted` with the run. -/
theorem emitRun_spec {i j : Nat} {x : Bytes} (hlen : permutation.length = decrypted.length)
    (hx : decrypted[i]? = some x) (hj : encrypted[j]? = some x)
    (hbelow : ∀ k (hk : k < encrypted.length), k < j → encrypted[k] < x) (out : List Nat × List Nat) :
    ∃ i' j', emitRun decrypted encrypted permutation j x i j out =
        some (i', j', emit out (rowsBetween decrypted encrypted permutation i i')) ∧
      i < i' ∧ i' ≤ decrypted.length ∧ decrypted[i']? ≠ some x ∧
      j < j' ∧ j' ≤ encrypted.length ∧ ∀ k, j ≤ k → k < j' → encrypted[k]? = some x := by
  obtain ⟨hi, -⟩ := List.getElem?_eq_some_iff.mp hx
  induction hn : decrypted.length - i generalizing i out with
  | zero => omega
  | succ n ih =>
    have ha : permutation[i]? = some (permutation.getD i 0) := by
      rw [List.getD_eq_getElem _ _ (by omega), List.getElem?_eq_getElem]
    obtain ⟨j', hrow, hjj', hj', hin, hout⟩ := emitRow_spec ha hx hj out
    have hrowAt : (List.range' j (j' - j)).map (fun k => (permutation.getD i 0, k)) =
        rowsBetween decrypted encrypted permutation i (i + 1) := by
      have hgetD : decrypted.getD i [] = x := by
        rw [List.getD_eq_getElem?_getD, hx, Option.getD_some]
      rw [rowsBetween_succ, rowAt, hgetD]
      exact (tableRow_of_run hencrypted hjj' hj' hin hout hbelow _).symm
    rw [emitRun, hrow, hrowAt]
    simp only [Option.bind_eq_bind, Option.bind_some]
    split <;> rename_i hnext
    · split <;> rename_i heq
      · have hx' : decrypted[i + 1]? = some x := by rw [List.getElem?_eq_getElem hnext, heq]
        obtain ⟨i', j'', hrun, hii', hi', hstop, hrest⟩ :=
          ih hx' (emit out (rowsBetween decrypted encrypted permutation i (i + 1))) hnext (by omega)
        refine ⟨i', j'', ?_, by omega, hi', hstop, hrest⟩
        rw [hrun, emit_emit, rowsBetween_append (Nat.le_succ i) (by omega)]
      · refine ⟨i + 1, j', rfl, Nat.lt_succ_self i, hi, ?_, hjj', hj', hin⟩
        rw [List.getElem?_eq_getElem hnext]
        exact fun h => heq (Option.some.inj h)
    · refine ⟨i + 1, j', rfl, Nat.lt_succ_self i, hi, ?_, hjj', hj', hin⟩
      rw [List.getElem?_eq_none (by omega)]
      exact nofun

/-- An element that falls between two neighbours is not in the list. -/
private theorem notMem_of_gap {j : Nat} {x : Bytes}
    (hbelow : ∀ k (hk : k < encrypted.length), k < j → encrypted[k] < x)
    (habove : ∀ h : j < encrypted.length, x < encrypted[j]) : x ∉ encrypted := by
  intro hmem
  obtain ⟨k, hk, rfl⟩ := List.getElem_of_mem hmem
  by_cases hkj : k < j
  · exact lt_irrefl _ (hbelow k hk hkj)
  · have hj : j < encrypted.length := by omega
    have hle := le_of_getElem? hencrypted (List.getElem?_eq_getElem hj) (List.getElem?_eq_getElem hk)
      (not_lt.mp hkj)
    exact absurd (habove hj) (not_lt.mpr hle)

theorem associate_spec (hdecrypted : decrypted.Pairwise (· ≤ ·))
    (hlen : permutation.length = decrypted.length) (fuel i j : Nat) (hi : i ≤ decrypted.length)
    (hj : j ≤ encrypted.length)
    (hbelow : ∀ k (hk : k < encrypted.length) (h : i < decrypted.length), k < j →
      encrypted[k] < decrypted[i])
    (hfuel : decrypted.length + encrypted.length < fuel + i + j) (out : List Nat × List Nat) :
    associate decrypted encrypted permutation fuel i j out =
      some (emit out (rowsBetween decrypted encrypted permutation i decrypted.length)) := by
  induction fuel generalizing i j out with
  | zero => omega
  | succ fuel ih =>
    have hmono {a b : Nat} (ha : a < decrypted.length) (hb : b < decrypted.length) (hab : a ≤ b) :
        decrypted[a] ≤ decrypted[b] :=
      le_of_getElem? hdecrypted (List.getElem?_eq_getElem ha) (List.getElem?_eq_getElem hb) hab
    have hlater : ∀ k (hk : k < encrypted.length) i' (hi' : i' < decrypted.length), i ≤ i' → k < j →
        encrypted[k] < decrypted[i'] := fun k hk i' hi' hii' hkj =>
      (hbelow k hk (by omega) hkj).trans_le (hmono (by omega) hi' hii')
    rw [associate]
    by_cases hin : i < decrypted.length ∧ j < encrypted.length
    · obtain ⟨hil, hjl⟩ := hin
      obtain ⟨i₁, hadvance, hii₁, hi₁, hskip, hstop⟩ := advanceDecrypted_spec decrypted i hjl
      have hskipped : rowsBetween decrypted encrypted permutation i i₁ = [] := by
        refine rowsBetween_eq_nil fun k hik hki => ?_
        have hk : k < decrypted.length := by omega
        rw [List.getD_eq_getElem _ _ hk]
        exact notMem_of_gap hencrypted (fun k' hk' hkj => hlater k' hk' k hk hik hkj)
          (fun _ => hskip k hk hik hki)
      rw [if_pos ⟨hil, hjl⟩]
      simp only [hadvance, Option.bind_eq_bind, Option.bind_some, List.getElem?_eq_getElem hjl]
      by_cases hend : decrypted.length ≤ i₁
      · rw [if_pos hend, ← show i₁ = decrypted.length by omega, hskipped, emit_nil]
        rfl
      · have hi₁l : i₁ < decrypted.length := by omega
        rw [if_neg hend, ← rowsBetween_append hii₁ hi₁l.le, hskipped, List.nil_append]
        simp only [List.getElem?_eq_getElem hi₁l, Option.bind_some]
        by_cases hequal : decrypted[i₁] = encrypted[j]
        · obtain ⟨i₂, j₂, hrun, hi₁₂, hi₂, hne, hjj₂, hj₂, hsame⟩ := emitRun_spec hencrypted hlen
            (hequal ▸ List.getElem?_eq_getElem hi₁l) (List.getElem?_eq_getElem hjl)
            (fun k hk hkj => hequal ▸ hlater k hk i₁ hi₁l hii₁ hkj) out
          obtain ⟨hj₂₃, hj₃, hadvanced, -⟩ :=
            advanceEncrypted_spec decrypted encrypted i₂ j₂
          rw [if_pos hequal, hrun]
          simp only [Option.bind_some]
          rw [ih i₂ _ hi₂ (by omega) ?_ (by omega), emit_emit, rowsBetween_append hi₁₂.le hi₂]
          intro k hk hi₂l hkj₃
          have hgreater : encrypted[j] < decrypted[i₂] := by
            refine lt_of_le_of_ne (hequal ▸ hmono hi₁l hi₂l hi₁₂.le) fun heq => hne ?_
            rw [List.getElem?_eq_getElem hi₂l, ← heq]
          by_cases hkj : k < j
          · exact hlater k hk i₂ hi₂l (by omega) hkj
          · by_cases hkj₂ : k < j₂
            · have hkx := hsame k (not_lt.mp hkj) hkj₂
              rw [List.getElem?_eq_getElem hk] at hkx
              rw [Option.some.inj hkx]
              exact hgreater
            · exact hadvanced k hk hi₂l (not_lt.mp hkj₂) hkj₃
        · have hgreater : encrypted[j] < decrypted[i₁] := lt_of_le_of_ne (hstop hi₁l) (Ne.symm hequal)
          obtain ⟨hj₃, hbound, hadvanced, hprogress⟩ :=
            advanceEncrypted_spec decrypted encrypted i₁ j
          have hmoved := hprogress hjl hi₁l hgreater
          rw [if_neg hequal]
          refine ih i₁ _ hi₁l.le (by omega) (fun k hk _ hkj₃ => ?_) (by omega) out
          by_cases hkj : k < j
          · exact hlater k hk i₁ hi₁l hii₁ hkj
          · exact hadvanced k hk hi₁l (not_lt.mp hkj) hkj₃
    · rw [if_neg hin, rowsBetween_eq_nil, emit_nil]
      intro k hik hk
      rw [List.getD_eq_getElem _ _ hk]
      exact notMem_of_gap hencrypted (fun k' hk' hkj => hlater k' hk' k hk hik hkj)
        (fun h => absurd ⟨by omega, h⟩ hin)

end Loops

section Table

/-- The index pairs of equal elements, first by response index, then by setup index. -/
def associationPairs (decrypted encrypted : List Bytes) : List (Nat × Nat) :=
  (List.range decrypted.length).flatMap (fun r => tableRow encrypted (decrypted.getD r []) r)

variable {decrypted encrypted : List Bytes}

theorem mem_tableRow {x : Bytes} {r : Nat} {p : Nat × Nat} :
    p ∈ tableRow encrypted x r ↔ p.1 = r ∧ encrypted[p.2]? = some x := by
  rw [tableRow, List.mem_map]
  constructor
  · rintro ⟨j, hj, rfl⟩
    exact ⟨rfl, of_decide_eq_true (List.mem_filter.mp hj).2⟩
  · rintro ⟨rfl, hj⟩
    refine ⟨p.2, List.mem_filter.mpr ⟨?_, decide_eq_true hj⟩, rfl⟩
    exact List.mem_range.mpr (List.getElem?_eq_some_iff.mp hj).1

theorem mem_associationPairs {p : Nat × Nat} :
    p ∈ associationPairs decrypted encrypted ↔
      ∃ x, decrypted[p.1]? = some x ∧ encrypted[p.2]? = some x := by
  rw [associationPairs, List.mem_flatMap]
  constructor
  · rintro ⟨r, hr, hp⟩
    obtain ⟨rfl, hj⟩ := mem_tableRow.mp hp
    rw [List.mem_range] at hr
    exact ⟨_, by rw [List.getD_eq_getElem _ _ hr, List.getElem?_eq_getElem hr], hj⟩
  · rintro ⟨x, hr, hj⟩
    refine ⟨p.1, List.mem_range.mpr (List.getElem?_eq_some_iff.mp hr).1, mem_tableRow.mpr ⟨rfl, ?_⟩⟩
    rw [List.getD_eq_getElem?_getD, hr]
    exact hj

theorem nodup_associationPairs : (associationPairs decrypted encrypted).Nodup := by
  rw [associationPairs, List.nodup_flatMap]
  constructor
  · intro r _
    rw [tableRow]
    refine List.Nodup.map (fun a b h => (Prod.mk.inj h).2) ?_
    exact List.nodup_range.filter _
  · refine List.nodup_range.imp fun hne p hp hp' => hne ?_
    exact (mem_tableRow.mp hp).1.symm.trans (mem_tableRow.mp hp').1

/-- The rows in the order of the sort are the rows of the response indices, permuted. -/
private theorem rowsBetween_arrange (permutation : List Nat) :
    rowsBetween (arrange decrypted permutation) encrypted permutation 0
        (arrange decrypted permutation).length =
      permutation.flatMap (fun r => tableRow encrypted (decrypted.getD r []) r) := by
  have hlist : (List.range permutation.length).map (fun i => permutation.getD i 0) = permutation := by
    apply List.ext_getElem
    · simp
    · intro i _ hi
      rw [List.getElem_map, List.getElem_range, List.getD_eq_getElem _ _ hi]
  conv_rhs => rw [← hlist, List.flatMap_map]
  rw [rowsBetween, length_arrange, Nat.sub_zero, ← List.range_eq_range']
  refine List.flatMap_congr fun i hi => ?_
  rw [List.mem_range] at hi
  rw [rowAt, arrange, List.getD_eq_getElem _ _ (by simpa using hi), List.getElem_map,
    List.getD_eq_getElem permutation _ hi]

/-- The call is its outer loop over the response in ascending order. -/
theorem getAssociationTable_eq (S : ComparisonSort) (raw : Raw) (decrypted : List Bytes) :
    raw.getAssociationTable S decrypted =
      associate (arrange decrypted (sortingPermutation S decrypted)) raw.encrypted
        (sortingPermutation S decrypted)
        ((arrange decrypted (sortingPermutation S decrypted)).length + raw.encrypted.length + 1) 0 0
        ([], []) := by
  have happly := applyPermutation_sorted S decrypted
  rw [getAssociationTable]
  rw [sortingPermutation] at happly ⊢
  simp only [happly, Option.bind_eq_bind, Option.bind_some]

/-- `GetAssociationTable` over an ascending container returns two vectors of equal length,
whose pairs are those of equal elements. -/
theorem getAssociationTable_spec (S : ComparisonSort) {raw : Raw}
    (hascending : raw.encrypted.Pairwise (· ≤ ·)) (decrypted : List Bytes) :
    ∃ table, raw.getAssociationTable S decrypted = some table ∧ table.1.length = table.2.length ∧
      (table.1.zip table.2).Perm (associationPairs decrypted raw.encrypted) := by
  have hassociate := associate_spec hascending (arrange_ascending S decrypted)
    (length_arrange decrypted (sortingPermutation S decrypted)).symm
    ((arrange decrypted (sortingPermutation S decrypted)).length + raw.encrypted.length + 1) 0 0
    (Nat.zero_le _) (Nat.zero_le _) (fun k _ _ hk => absurd hk (Nat.not_lt_zero k)) (by omega) ([], [])
  rw [← getAssociationTable_eq, rowsBetween_arrange] at hassociate
  refine ⟨_, hassociate, by simp [emit], ?_⟩
  rw [zip_emit]
  exact (sortingPermutation_perm S decrypted).flatMap_right _

/-- Over an ascending container the table is the relation of equality between the response
and the container, each pair once. -/
theorem table_is_equality (S : ComparisonSort) {raw : Raw}
    (hascending : raw.encrypted.Pairwise (· ≤ ·)) (decrypted : List Bytes) :
    ∃ table, raw.getAssociationTable S decrypted = some table ∧ table.1.length = table.2.length ∧
      (table.1.zip table.2).Nodup ∧ ∀ a b, (a, b) ∈ table.1.zip table.2 ↔
        ∃ x, decrypted[a]? = some x ∧ raw.encrypted[b]? = some x := by
  obtain ⟨table, htable, hlength, hperm⟩ := getAssociationTable_spec S hascending decrypted
  refine ⟨table, htable, hlength, hperm.nodup_iff.mpr nodup_associationPairs, fun a b => ?_⟩
  rw [hperm.mem_iff, mem_associationPairs]

/-- Repeats on both sides, and elements on one side only. -/
theorem table_is_equality_repeated :
    ∃ table, getAssociationTable .insertion ⟨[[1], [2], [2], [4]]⟩ [[2], [3], [2]] = some table ∧
      table.1.length = table.2.length ∧ (table.1.zip table.2).Nodup ∧
      ∀ a b, (a, b) ∈ table.1.zip table.2 ↔
        ∃ x : Bytes, [[2], [3], [2]][a]? = some x ∧ [[1], [2], [2], [4]][b]? = some x :=
  table_is_equality .insertion
    (show (Raw.mk [[1], [2], [2], [4]]).encrypted.Pairwise (· ≤ ·) by decide) [[2], [3], [2]]

end Table

end Raw
end PrivateSetIntersection
