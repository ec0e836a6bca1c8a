import Mathlib

/-! Lists merged from several others, each of them kept in order: what a common log of
numbered threads looks like when every thread goes through a list of its own. -/
namespace Library.Interleaving
variable {α β : Type}

/-- What the log has of thread `t`. -/
def ofThread (log : List (Nat × α)) (t : Nat) : List α := (log.filter (fun p => p.1 = t)).map Prod.snd

theorem ofThread_append (log log' : List (Nat × α)) (t : Nat) :
    ofThread (log ++ log') t = ofThread log t ++ ofThread log' t := by
  rw [ofThread, List.filter_append, List.map_append]
  rfl

@[simp] theorem ofThread_singleton_self (t : Nat) (x : α) : ofThread [(t, x)] t = [x] := by
  simp [ofThread]

theorem ofThread_singleton_of_ne {s t : Nat} (h : s ≠ t) (x : α) : ofThread [(s, x)] t = [] := by
  simp [ofThread, h]

/-- The list is a merge of the parts: some log of it has part `t` for thread `t`. -/
def Interleaved (parts : List (List α)) (xs : List α) : Prop :=
  ∃ log : List (Nat × α), log.map Prod.snd = xs ∧ (∀ p ∈ log, p.1 < parts.length) ∧
    ∀ t (h : t < parts.length), ofThread log t = parts[t]

theorem interleaved_singleton_iff {xs ys : List α} : Interleaved [xs] ys ↔ ys = xs := by
  constructor
  · rintro ⟨log, rfl, hthreads, hparts⟩
    have hall : log.filter (fun p => p.1 = 0) = log :=
      List.filter_eq_self.mpr fun p hp => decide_eq_true (Nat.lt_one_iff.mp (hthreads p hp))
    have hpart := hparts 0 Nat.one_pos
    rw [ofThread, hall] at hpart
    exact hpart
  · rintro rfl
    have hsnd : (ys.map (fun y => (0, y))).map Prod.snd = ys := by simp [Function.comp_def]
    refine ⟨ys.map (fun y => (0, y)), hsnd, by simp, fun t ht => ?_⟩
    obtain rfl : t = 0 := Nat.lt_one_iff.mp ht
    rw [ofThread, List.filter_eq_self.mpr (by simp), hsnd, List.getElem_singleton]

theorem Interleaved.map (f : α → β) {parts : List (List α)} {xs : List α} (h : Interleaved parts xs) :
    Interleaved (parts.map (List.map f)) (xs.map f) := by
  obtain ⟨log, rfl, hthreads, hparts⟩ := h
  refine ⟨log.map (fun p => (p.1, f p.2)), by simp [Function.comp_def], ?_, fun t ht => ?_⟩
  · intro p hp
    obtain ⟨q, hq, rfl⟩ := List.mem_map.mp hp
    rw [List.length_map]
    exact hthreads q hq
  · rw [List.length_map] at ht
    rw [List.getElem_map, ← hparts t ht, ofThread, List.filter_map, List.map_map, ofThread, List.map_map]
    rfl

/-- The entries below thread `n` are those of thread 0, of thread 1, and so on, in some order. -/
private theorem below_perm (log : List (Nat × α)) (n : Nat) :
    ((log.filter (fun p => p.1 < n)).map Prod.snd).Perm
      ((List.range n).map (ofThread log)).flatten := by
  induction n with
  | zero => simp
  | succ n ih =>
    have hbelow : (log.filter (fun p => p.1 < n + 1)).filter (fun p => p.1 < n) =
        log.filter (fun p => p.1 < n) := by
      rw [List.filter_filter]
      refine List.filter_congr fun p _ => ?_
      rw [← Bool.decide_and, decide_eq_decide]
      omega
    have hlast : (log.filter (fun p => p.1 < n + 1)).filter (fun p => !decide (p.1 < n)) =
        log.filter (fun p => p.1 = n) := by
      rw [List.filter_filter]
      refine List.filter_congr fun p _ => ?_
      rw [← decide_not, ← Bool.decide_and, decide_eq_decide]
      omega
    have hsplit := List.filter_append_perm (fun p => decide (p.1 < n)) (log.filter (fun p => p.1 < n + 1))
    rw [hbelow, hlast] at hsplit
    have hmap := hsplit.symm.map Prod.snd
    rw [List.map_append] at hmap
    rw [List.range_succ, List.map_append, List.flatten_append, List.map_singleton, List.flatten_singleton]
    exact hmap.trans (ih.append_right _)

theorem Interleaved.perm {parts : List (List α)} {xs : List α} (h : Interleaved parts xs) :
    xs.Perm parts.flatten := by
  obtain ⟨log, rfl, hthreads, hparts⟩ := h
  have hall : log.filter (fun p => p.1 < parts.length) = log :=
    List.filter_eq_self.mpr fun p hp => decide_eq_true (hthreads p hp)
  have hranges : (List.range parts.length).map (ofThread log) = parts := by
    refine List.ext_getElem (by simp) fun t _ ht => ?_
    rw [List.getElem_map, List.getElem_range, hparts t ht]
  have hperm := below_perm log parts.length
  rwa [hall, hranges] at hperm

end Library.Interleaving
