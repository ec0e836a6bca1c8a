import PrivateSetIntersection.Datastructure.BloomMembership

/-! A `BloomFilter` through any history of insertions and trips over the wire: what it
ends up with is its first bits and the positions of what was added, in no order. -/
namespace PrivateSetIntersection
open Library BitString

namespace BloomFilter

/-- What may happen to a filter: either overload of `Add`, or being sent and received. -/
inductive Event where
  | addOne (input : Bytes)
  | add (inputs : List Bytes)
  | roundTrip

def Event.inputs : Event → List Bytes
  | .addOne input => [input]
  | .add inputs => inputs
  | .roundTrip => []

section History
variable (sha256 : Bytes → Nat)

def step (filter : BloomFilter) : Event → StatusOr BloomFilter
  | .addOne input => .ofOption (filter.add sha256 [input])
  | .add inputs => .ofOption (filter.add sha256 inputs)
  | .roundTrip => createFromProtobuf filter.toProtobuf

def run (filter : BloomFilter) (events : List Event) : StatusOr BloomFilter :=
  events.foldlM (step sha256) filter

def added (events : List Event) : List Bytes := events.flatMap Event.inputs

/-- A trip over the wire adds nothing. -/
theorem step_eq (filter : BloomFilter) (event : Event) :
    step sha256 filter event = .ofOption (filter.add sha256 event.inputs) := by
  cases event with
  | addOne input => rfl
  | add inputs => rfl
  | roundTrip => rfl

/-- A history is one batch. -/
theorem run_eq (filter : BloomFilter) (events : List Event) :
    run sha256 filter events = .ofOption (filter.add sha256 (added events)) := by
  rw [run]
  induction events generalizing filter with
  | nil => rfl
  | cons event events ih =>
    have happend : filter.add sha256 (added (event :: events)) =
        (filter.add sha256 event.inputs >>= fun filter => filter.add sha256 (added events)) := by
      rw [added, List.flatMap_cons]
      exact List.foldlM_append
    rw [List.foldlM_cons, step_eq, happend]
    cases filter.add sha256 event.inputs with
    | none => rfl
    | some filter' => exact ih filter'

variable {sha256} {filter filter' : BloomFilter} {events : List Event}

/-- The final bits depend on which elements were added, not on how. -/
theorem run_congr {events' : List Event} (h : ∀ x, x ∈ added events' ↔ x ∈ added events) :
    run sha256 filter events' = run sha256 filter events := by
  rw [run_eq, run_eq, add_congr h]

theorem exists_run (h : Usable filter) (events : List Event) :
    ∃ filter', run sha256 filter events = .ok filter' ∧ Added sha256 filter filter' (added events) := by
  have haddable : ∀ x ∈ added events, Addable sha256 filter x := fun x _ => h.addable sha256 x
  obtain ⟨filter', hadd⟩ := exists_add haddable
  exact ⟨filter', by rw [run_eq, hadd, StatusOr.ofOption_some], add_eq_some_iff.mp hadd⟩

end History

section Answers
variable {sha256 : Bytes → Nat} {filter filter' : BloomFilter} {inputs : List Bytes}

/-- `Check` on a filter that elements were added to, by the positions in the first one. -/
theorem Added.check_eq (hadded : Added sha256 filter filter' inputs) (h : Usable filter) (y : Bytes) :
    ∃ answer, filter'.check sha256 y = some answer ∧
      (answer = true ↔ ∀ i : Nat, (i : Int) < filter.numHashFunctions →
        bitAt filter'.bits (position sha256 filter y i) = true) := by
  have haddable := (hadded.addable_iff y).mpr (h.addable sha256 y)
  obtain ⟨answer, hcheck, hiff⟩ := BloomFilter.check_eq haddable
  refine ⟨answer, hcheck, hiff.trans ?_⟩
  simp only [hadded.covers_iff, h.covers_iff]
  constructor
  · exact fun hall i hi => hall _ ⟨i, hi, rfl⟩
  · rintro hall _ ⟨i, hi, rfl⟩
    exact hall i hi

theorem Added.check_of_mem (hadded : Added sha256 filter filter' inputs) (h : Usable filter) {x : Bytes}
    (hx : x ∈ inputs) : filter'.check sha256 x = some true := by
  obtain ⟨answer, hcheck, hiff⟩ := hadded.check_eq h x
  rw [hcheck, hiff.mpr fun i hi => ?_]
  exact (hadded.bits _).mpr (Or.inr ⟨x, hx, (h.covers_iff sha256 x _).mpr ⟨i, hi, rfl⟩⟩)

theorem Added.check_mono (hadded : Added sha256 filter filter' inputs) (h : Usable filter) {y : Bytes}
    (hy : filter.check sha256 y = some true) : filter'.check sha256 y = some true := by
  have hunchanged : Added sha256 filter filter [] := Added.nil_iff.mpr rfl
  obtain ⟨answer, hcheck, hiff⟩ := hunchanged.check_eq h y
  obtain ⟨answer', hcheck', hiff'⟩ := hadded.check_eq h y
  rw [hy, Option.some.injEq] at hcheck
  rw [hcheck', hiff'.mpr fun i hi => (hadded.bits _).mpr (Or.inl (hiff.mp hcheck.symm i hi))]

theorem exists_intersect {elements : List Bytes}
    (h : ∀ x ∈ elements, ∃ answer, filter.check sha256 x = some answer) :
    ∃ indices, filter.intersect sha256 elements = some indices ∧ indices.Pairwise (· < ·) ∧
      ∀ i, i ∈ indices ↔ ∃ y, elements[i]? = some y ∧ filter.check sha256 y = some true := by
  have hpresent : ∀ x ∈ elements,
      filter.check sha256 x = some (decide (filter.check sha256 x = some true)) := by
    intro x hx
    obtain ⟨_ | _, hcheck⟩ := h x hx
    · simp [hcheck]
    · simp [hcheck]
  refine ⟨_, intersect_eq hpresent, ?_, fun i => ?_⟩
  · have hsub := (List.filter_sublist (p := fun p => decide (filter.check sha256 p.1 = some true))
      (l := elements.zipIdx)).map Prod.snd
    rw [List.zipIdx_map_snd] at hsub
    exact List.Pairwise.sublist hsub List.pairwise_lt_range'
  · simp only [List.mem_map, List.mem_filter, decide_eq_true_eq]
    constructor
    · rintro ⟨⟨y, i⟩, ⟨hp, hcheck⟩, rfl⟩
      exact ⟨y, List.mem_zipIdx_iff_getElem?.mp hp, hcheck⟩
    · rintro ⟨y, hy, hcheck⟩
      exact ⟨(y, i), ⟨List.mem_zipIdx_iff_getElem?.mpr hy, hcheck⟩, rfl⟩

end Answers

/-- The exact meaning of a filter after any history. -/
theorem history_semantics (sha256 : Bytes → Nat) {filter : BloomFilter} (h : Usable filter)
    (events : List Event) :
    ∃ filter', run sha256 filter events = .ok filter' ∧
      filter'.numHashFunctions = filter.numHashFunctions ∧
      filter'.bits.length = filter.bits.length ∧
      (∀ j, bitAt filter'.bits j = true ↔ bitAt filter.bits j = true ∨ ∃ x ∈ added events,
        ∃ i : Nat, (i : Int) < filter.numHashFunctions ∧ position sha256 filter x i = j) ∧
      (∀ y, ∃ answer, filter'.check sha256 y = some answer ∧
        (answer = true ↔ ∀ i : Nat, (i : Int) < filter.numHashFunctions →
          bitAt filter'.bits (position sha256 filter y i) = true)) ∧
      (∀ x ∈ added events, filter'.check sha256 x = some true) ∧
      (∀ y, filter.check sha256 y = some true → filter'.check sha256 y = some true) ∧
      (∀ events', (∀ x, x ∈ added events' ↔ x ∈ added events) →
        run sha256 filter events' = .ok filter') ∧
      ∀ elements, ∃ indices, filter'.intersect sha256 elements = some indices ∧
        indices.Pairwise (· < ·) ∧
        ∀ i, i ∈ indices ↔ ∃ y, elements[i]? = some y ∧ filter'.check sha256 y = some true := by
  obtain ⟨filter', hrun, hadded⟩ : ∃ filter', run sha256 filter events = .ok filter' ∧
      Added sha256 filter filter' (added events) := exists_run h events
  refine ⟨filter', hrun, hadded.count, hadded.length, fun j => ?_, hadded.check_eq h,
    fun x hx => hadded.check_of_mem h hx, fun y hy => hadded.check_mono h hy,
    fun events' hsame => (run_congr hsame).trans hrun, fun elements => exists_intersect ?_⟩
  · simp only [hadded.bits, h.covers_iff]
  · intro x _
    obtain ⟨answer, hcheck, -⟩ := hadded.check_eq h x
    exact ⟨answer, hcheck⟩

/-- Two hash functions on two bytes, an element twice, and a trip in between: the bit that was
set is still set, and those of the two elements are. -/
theorem history_semantics_repeated :
    ∃ filter', run (fun x => 5 * x.length) ⟨2, [1, 0]⟩ [.addOne [7], .roundTrip, .add [[7], [8, 9]]] =
        .ok filter' ∧ filter'.numHashFunctions = 2 ∧ filter'.bits.length = 2 ∧
      (bitAt filter'.bits 0 = true ∧ bitAt filter'.bits 10 = true ∧ bitAt filter'.bits 5 = false) ∧
      filter'.check (fun x => 5 * x.length) [8, 9] = some true ∧
      ∃ indices, filter'.intersect (fun x => 5 * x.length) [[8, 9], [1, 2, 3], [7]] = some indices ∧
        0 ∈ indices ∧ 2 ∈ indices := by
  obtain ⟨filter', hrun, hcount, hlength, hbits, -, hadded, -, -, hintersect⟩ :=
    history_semantics (fun x => 5 * x.length) (show Usable ⟨2, [1, 0]⟩ from ⟨by decide, by decide, by decide⟩)
      [.addOne [7], .roundTrip, .add [[7], [8, 9]]]
  obtain ⟨indices, hindices, -, hmem⟩ := hintersect [[8, 9], [1, 2, 3], [7]]
  refine ⟨filter', hrun, hcount, hlength, ⟨?_, ?_, ?_⟩, hadded [8, 9] (by decide), indices, hindices, ?_, ?_⟩
  · exact (hbits 0).mpr (.inl (by decide))
  · exact (hbits 10).mpr (.inr ⟨[7], by decide, 0, by decide, by decide⟩)
  · refine Bool.eq_false_iff.mpr fun hset => ?_
    obtain hold | ⟨x, hx, i, hi, hposition⟩ := (hbits 5).mp hset
    · exact absurd hold (by decide)
    · have hpositions : ∀ x ∈ added [.addOne [7], .roundTrip, .add [[7], [8, 9]]], ∀ i < 2,
          position (fun x => 5 * x.length) ⟨2, [1, 0]⟩ x i ≠ 5 := by decide
      exact hpositions x hx i (Nat.cast_lt.mp hi) hposition
  · exact (hmem 0).mpr ⟨[8, 9], rfl, hadded [8, 9] (by decide)⟩
  · exact (hmem 2).mpr ⟨[7], rfl, hadded [7] (by decide)⟩

end BloomFilter
end PrivateSetIntersection
