import Mathlib

/-! Applying a fallible function along a list, up to the first failure. -/
namespace Library.Traversal
variable {α β ε : Type} {f : α → Except ε β}

theorem mapM_cons_ok {x : α} {y : β} (h : f x = .ok y) (xs : List α) :
    (x :: xs).mapM f = match xs.mapM f with
      | .ok ys => .ok (y :: ys)
      | .error e => .error e := by
  rw [List.mapM_cons, h]
  cases xs.mapM f <;> rfl

theorem mapM_cons_error {x : α} {e : ε} (h : f x = .error e) (xs : List α) :
    (x :: xs).mapM f = .error e := by
  rw [List.mapM_cons, h]
  rfl

/-- A traversal goes through exactly if the function does on every element. -/
theorem mapM_eq_ok_iff {xs : List α} {ys : List β} :
    xs.mapM f = .ok ys ↔ List.Forall₂ (fun x y => f x = .ok y) xs ys := by
  induction xs generalizing ys with
  | nil =>
    rw [List.forall₂_nil_left_iff, List.mapM_nil]
    exact ⟨fun h => (Except.ok.inj h).symm, fun h => congrArg Except.ok h.symm⟩
  | cons x xs ih =>
    rw [List.forall₂_cons_left_iff]
    cases hx : f x with
    | error e =>
      rw [mapM_cons_error hx]
      exact ⟨nofun, fun ⟨_, _, h, _⟩ => nomatch h⟩
    | ok y =>
      rw [mapM_cons_ok hx]
      cases hxs : xs.mapM f with
      | error e =>
        refine ⟨nofun, fun ⟨_, ys', _, h, _⟩ => ?_⟩
        rw [ih.mpr h] at hxs
        cases hxs
      | ok ys' =>
        constructor
        · rintro ⟨⟩
          exact ⟨y, ys', rfl, ih.mp hxs, rfl⟩
        · rintro ⟨_, ys'', ⟨⟩, h, rfl⟩
          rw [ih.mpr h] at hxs
          cases hxs
          rfl

theorem mapM_of_total {g : α → β} {xs : List α} (h : ∀ x ∈ xs, f x = .ok (g x)) :
    xs.mapM f = .ok (xs.map g) := by
  rw [mapM_eq_ok_iff, List.forall₂_map_right_iff, List.forall₂_same]
  exact h

theorem mapM_of_some {f : α → Option β} {g : α → β} {xs : List α} (h : ∀ x ∈ xs, f x = some (g x)) :
    xs.mapM f = some (xs.map g) := by
  induction xs with
  | nil => rfl
  | cons x xs ih =>
    rw [List.mapM_cons, h x List.mem_cons_self, ih fun y hy => h y (List.mem_cons_of_mem x hy)]
    rfl

theorem length_of_mapM_ok {xs : List α} {ys : List β} (h : xs.mapM f = .ok ys) :
    ys.length = xs.length :=
  (mapM_eq_ok_iff.mp h).length_eq.symm

theorem exists_mapM_ok_iff {xs : List α} :
    (∃ ys, xs.mapM f = .ok ys) ↔ ∀ x ∈ xs, ∃ y, f x = .ok y := by
  induction xs with
  | nil => exact iff_of_true ⟨[], rfl⟩ nofun
  | cons x xs ih =>
    rw [List.forall_mem_cons, ← ih]
    cases hx : f x with
    | error e =>
      rw [mapM_cons_error hx]
      exact iff_of_false (fun ⟨_, h⟩ => nomatch h) (fun h => nomatch h.1)
    | ok y =>
      rw [mapM_cons_ok hx]
      cases xs.mapM f with
      | error e => exact iff_of_false (fun ⟨_, h⟩ => nomatch h) (fun h => nomatch h.2)
      | ok ys => exact iff_of_true ⟨_, rfl⟩ ⟨⟨y, rfl⟩, ys, rfl⟩

/-- A result stands where the element it was computed from does. -/
theorem getElem?_of_mapM_ok {xs : List α} {ys : List β} (h : xs.mapM f = .ok ys) (i : Nat) (y : β) :
    ys[i]? = some y ↔ ∃ x, xs[i]? = some x ∧ f x = .ok y := by
  obtain ⟨hlength, hget⟩ := List.forall₂_iff_get.mp (mapM_eq_ok_iff.mp h)
  constructor
  · intro hy
    obtain ⟨hi, rfl⟩ := List.getElem?_eq_some_iff.mp hy
    exact ⟨_, List.getElem?_eq_getElem (hlength ▸ hi), hget i (hlength ▸ hi) hi⟩
  · rintro ⟨x, hx, hy⟩
    obtain ⟨hi, rfl⟩ := List.getElem?_eq_some_iff.mp hx
    have hfi : f xs[i] = .ok ys[i] := hget i hi (hlength ▸ hi)
    rw [List.getElem?_eq_getElem (hlength ▸ hi), Except.ok.inj (hfi.symm.trans hy)]

theorem mapM_append_ok {xs : List α} {ys : List β} (h : xs.mapM f = .ok ys) (zs : List α) :
    (xs ++ zs).mapM f = match zs.mapM f with
      | .ok ws => .ok (ys ++ ws)
      | .error e => .error e := by
  rw [List.mapM_append, h]
  cases zs.mapM f <;> rfl

theorem mapM_append_error {xs : List α} {e : ε} (h : xs.mapM f = .error e) (zs : List α) :
    (xs ++ zs).mapM f = .error e := by
  rw [List.mapM_append, h]
  rfl

theorem mapM_perm {xs xs' : List α} {ys : List β} (h : xs.Perm xs') (hxs : xs.mapM f = .ok ys) :
    ∃ ys', xs'.mapM f = .ok ys' ∧ ys.Perm ys' := by
  obtain ⟨ys', hys, hxs'⟩ := List.perm_comp_forall₂ h.symm (mapM_eq_ok_iff.mp hxs)
  exact ⟨ys', mapM_eq_ok_iff.mpr hys, hxs'.symm⟩

end Library.Traversal
