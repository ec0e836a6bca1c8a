import PrivateSetIntersection.Library.Bytes

/-! What a caller may rely on after a comparison sort. Equivalent elements may
come out in any order, so nothing proved from the contract needs stability. -/
namespace Library

/-- A comparator whose incomparability is transitive. -/
structure StrictWeak {α : Type} (lt : α → α → Bool) : Prop where
  asymm : ∀ a b, lt a b = true → lt b a = false
  cotrans : ∀ a b c, lt b a = false → lt c b = false → lt c a = false

/-- Any sort meeting the contract, at every element type and comparator. -/
structure ComparisonSort where
  sort : {α : Type} → (α → α → Bool) → List α → List α
  perm : ∀ {α : Type} (lt : α → α → Bool) (xs : List α), (sort lt xs).Perm xs
  sorted : ∀ {α : Type} {lt : α → α → Bool}, StrictWeak lt → ∀ xs : List α,
    (sort lt xs).Pairwise (fun a b => lt b a = false)

/-- The comparator orders by a key, whichever way it decides that. -/
def ByKey {α κ : Type} [LinearOrder κ] (key : α → κ) (lt : α → α → Bool) : Prop :=
  ∀ a b, lt a b = true ↔ key a < key b

section Keys
variable {α κ : Type} [LinearOrder κ] {key : α → κ} {lt lt' : α → α → Bool}

theorem ByKey.eq_false_iff (h : ByKey key lt) (a b : α) : lt b a = false ↔ key a ≤ key b := by
  rw [← not_lt, ← h b a, Bool.not_eq_true]

theorem ByKey.strictWeak (h : ByKey key lt) : StrictWeak lt where
  asymm a b hab := (h.eq_false_iff a b).mpr ((h a b).mp hab).le
  cotrans a b c hba hcb :=
    (h.eq_false_iff a c).mpr (((h.eq_false_iff a b).mp hba).trans ((h.eq_false_iff b c).mp hcb))

namespace ComparisonSort
variable (S : ComparisonSort)

theorem sort_ascending (h : ByKey key lt) (xs : List α) :
    (S.sort lt xs).Pairwise (fun a b => key a ≤ key b) :=
  (S.sorted h.strictWeak xs).imp fun {a b} hab => (h.eq_false_iff a b).mp hab

@[simp] theorem mem_sort (lt : α → α → Bool) (xs : List α) (a : α) : a ∈ S.sort lt xs ↔ a ∈ xs :=
  (S.perm lt xs).mem_iff

end ComparisonSort

/-- Two ascending arrangements of one bag of keys are the same list. -/
theorem ascending_unique {xs ys : List κ} (hx : xs.Pairwise (· ≤ ·)) (hy : ys.Pairwise (· ≤ ·))
    (h : xs.Perm ys) : xs = ys :=
  h.eq_of_pairwise (fun _ _ _ _ => le_antisymm) hx hy

/-- Sorting whole keys leaves no freedom: any two sorts of permuted inputs agree. -/
theorem ComparisonSort.sort_eq_of_perm (S T : ComparisonSort) {lt lt' : κ → κ → Bool}
    (h : ByKey id lt) (h' : ByKey id lt') {xs ys : List κ} (hperm : xs.Perm ys) :
    S.sort lt xs = T.sort lt' ys :=
  ascending_unique (S.sort_ascending h xs) (T.sort_ascending h' ys)
    ((S.perm _ xs).trans (hperm.trans (T.perm _ ys).symm))

end Keys

def ComparisonSort.insertion : ComparisonSort where
  sort lt xs := xs.insertionSort (fun a b => lt b a = false)
  perm lt xs := List.perm_insertionSort _ xs
  sorted {_ lt} h xs := by
    have : Std.Total (fun a b => lt b a = false) := ⟨fun a b => by
      cases hab : lt a b with
      | false => exact Or.inr rfl
      | true => exact Or.inl (h.asymm a b hab)⟩
    have : IsTrans _ (fun a b => lt b a = false) := ⟨h.cotrans⟩
    exact List.pairwise_insertionSort _ xs

end Library
