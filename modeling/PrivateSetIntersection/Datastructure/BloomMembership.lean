import PrivateSetIntersection.Library.BitString
import PrivateSetIntersection.Datastructure.BloomFilter

/-! The bits of `BloomFilter` as a set of positions: `Add` puts the positions of an
element in, and `Check` asks whether they all are. -/
namespace PrivateSetIntersection
open Library BitString

namespace BloomFilter

section Bits
variable {bits : Bytes}

def Inside (bits : Bytes) (index : Int) : Prop := 0 ≤ index ∧ index < 8 * bits.length

private theorem inside_byte {index : Int} :
    (0 ≤ index ∧ index / 8 < bits.length) ↔ Inside bits index := by
  rw [Inside]
  omega

/-- Setting a bit inside the string adds its position. -/
theorem setBit_eq_some_iff {index : Int} {bits' : Bytes} :
    setBit bits index = some bits' ↔ Inside bits index ∧ bits'.length = bits.length ∧
      ∀ j : Nat, bitAt bits' j = true ↔ bitAt bits j = true ∨ (j : Int) = index := by
  by_cases hinside : Inside bits index
  · obtain ⟨k, rfl⟩ := Int.eq_ofNat_of_zero_le hinside.1
    have hbyte : ((k : Int) / 8).toNat = k / 8 := by omega
    have hbit : ((k : Int) % 8).toNat = k % 8 := by omega
    have hlt : k / 8 < bits.length := by
      have hk := hinside.2
      omega
    have hset : ∀ j : Nat, bitAt (bits.modify (k / 8) (· ||| UInt8.ofNat (1 <<< (k % 8)))) j = true ↔
        bitAt bits j = true ∨ (j : Int) = k := by
      intro j
      rw [bitAt_modify_or bits hlt, testBit_ofNat, single_bit, Bool.or_eq_true, decide_eq_true_iff,
        Nat.cast_inj]
    rw [setBit, if_pos (inside_byte.mpr hinside), hbyte, hbit, Option.some.injEq]
    constructor
    · rintro rfl
      exact ⟨hinside, List.length_modify _ _ _, hset⟩
    · rintro ⟨-, hlength, hbits⟩
      refine ext_bitAt ((List.length_modify _ _ _).trans hlength.symm) fun j => ?_
      rw [Bool.eq_iff_iff, hset, hbits]
  · rw [setBit, if_neg (fun h => hinside (inside_byte.mp h))]
    exact ⟨nofun, fun h => absurd h.1 hinside⟩

theorem exists_setBit {index : Int} (h : Inside bits index) : ∃ bits', setBit bits index = some bits' :=
  ⟨_, if_pos (inside_byte.mpr h)⟩

theorem setBits_eq_some_iff {indices : List Int} {bits' : Bytes} :
    indices.foldlM setBit bits = some bits' ↔ (∀ index ∈ indices, Inside bits index) ∧
      bits'.length = bits.length ∧
      ∀ j : Nat, bitAt bits' j = true ↔ bitAt bits j = true ∨ (j : Int) ∈ indices := by
  induction indices generalizing bits with
  | nil =>
    constructor
    · rintro ⟨⟩
      exact ⟨nofun, rfl, fun j => by simp⟩
    · rintro ⟨-, hlength, hbits⟩
      rw [List.foldlM_nil]
      refine congrArg some (ext_bitAt hlength.symm fun j => ?_)
      rw [Bool.eq_iff_iff, hbits, or_iff_left List.not_mem_nil]
  | cons index indices ih =>
    have hstep (hinside : Inside bits index) {bits₁ : Bytes} (hset : setBit bits index = some bits₁) :
        indices.foldlM setBit bits₁ = some bits' ↔ (∀ i ∈ indices, Inside bits i) ∧
          bits'.length = bits.length ∧
          ∀ j : Nat, bitAt bits' j = true ↔ bitAt bits j = true ∨ (j : Int) ∈ index :: indices := by
      obtain ⟨-, hlength₁, hbits₁⟩ := setBit_eq_some_iff.mp hset
      rw [ih]
      simp only [Inside, hlength₁, hbits₁, or_assoc, List.mem_cons]
    rw [List.foldlM_cons, Option.bind_eq_bind, Option.bind_eq_some_iff, List.forall_mem_cons]
    constructor
    · rintro ⟨bits₁, hset, hrest⟩
      have hinside := (setBit_eq_some_iff.mp hset).1
      obtain ⟨hinsides, hsame⟩ := (hstep hinside hset).mp hrest
      exact ⟨⟨hinside, hinsides⟩, hsame⟩
    · rintro ⟨⟨hinside, hinsides⟩, hsame⟩
      obtain ⟨bits₁, hset⟩ := exists_setBit hinside
      exact ⟨bits₁, hset, (hstep hinside hset).mpr ⟨hinsides, hsame⟩⟩

theorem exists_setBits {indices : List Int} (h : ∀ index ∈ indices, Inside bits index) :
    ∃ bits', indices.foldlM setBit bits = some bits' := by
  induction indices generalizing bits with
  | nil => exact ⟨bits, rfl⟩
  | cons index indices ih =>
    rw [List.forall_mem_cons] at h
    obtain ⟨bits₁, hset⟩ := exists_setBit h.1
    obtain ⟨-, hlength₁, -⟩ := setBit_eq_some_iff.mp hset
    rw [List.foldlM_cons, hset]
    exact ih fun i hi => by simpa only [Inside, hlength₁] using h.2 i hi

theorem getBit_eq {index : Int} (h : Inside bits index) :
    getBit bits index = some (bitAt bits index.toNat) := by
  obtain ⟨k, rfl⟩ := Int.eq_ofNat_of_zero_le h.1
  have hbyte : ((k : Int) / 8).toNat = k / 8 := by omega
  have hbit : ((k : Int) % 8).toNat = k % 8 := by omega
  have hlt : k / 8 < bits.length := by
    have hk := h.2
    omega
  rw [getBit, if_pos (inside_byte.mpr h), hbyte, hbit, List.getElem?_eq_getElem hlt, Int.toNat_natCast,
    bitAt_of_lt hlt]
  rfl

end Bits

section Elements
variable (sha256 : Bytes → Nat) {filter filter' : BloomFilter}

theorem hash_congr (hcount : filter'.numHashFunctions = filter.numHashFunctions)
    (hlength : filter'.bits.length = filter.bits.length) (x : Bytes) :
    filter'.hash sha256 x = filter.hash sha256 x := by
  simp only [hash, hcount, hlength]

/-- An element can be added: its positions are defined, and inside. -/
def Addable (filter : BloomFilter) (x : Bytes) : Prop :=
  ∃ indices, filter.hash sha256 x = some indices ∧ ∀ index ∈ indices, Inside filter.bits index

def Covers (filter : BloomFilter) (x : Bytes) (j : Nat) : Prop :=
  ∃ indices, filter.hash sha256 x = some indices ∧ (j : Int) ∈ indices

/-- A filter with the elements added to another of its shape. -/
structure Added (filter filter' : BloomFilter) (inputs : List Bytes) : Prop where
  addable : ∀ x ∈ inputs, Addable sha256 filter x
  count : filter'.numHashFunctions = filter.numHashFunctions
  length : filter'.bits.length = filter.bits.length
  bits : ∀ j, bitAt filter'.bits j = true ↔
    bitAt filter.bits j = true ∨ ∃ x ∈ inputs, Covers sha256 filter x j

variable {sha256}

theorem Covers.of_hash {x : Bytes} {indices : List Int} (h : filter.hash sha256 x = some indices) {j : Nat} :
    Covers sha256 filter x j ↔ (j : Int) ∈ indices := by
  rw [Covers, h]
  simp

theorem Added.nil_iff : Added sha256 filter filter' [] ↔ filter' = filter := by
  constructor
  · rintro ⟨-, hcount, hlength, hbits⟩
    have hsame : filter'.bits = filter.bits := by
      refine ext_bitAt hlength fun j => ?_
      rw [Bool.eq_iff_iff, hbits]
      simp
    cases filter
    cases filter'
    cases hcount
    cases hsame
    rfl
  · rintro rfl
    exact ⟨nofun, rfl, rfl, fun j => by simp⟩

theorem addOne_eq_some_iff {x : Bytes} :
    filter.addOne sha256 x = some filter' ↔ Added sha256 filter filter' [x] := by
  rw [addOne]
  cases hhash : filter.hash sha256 x with
  | none =>
    refine iff_of_false nofun fun h => ?_
    obtain ⟨indices, hindices, -⟩ := h.addable x (List.mem_singleton_self x)
    exact nomatch hhash.symm.trans hindices
  | some indices =>
    have hcovers (j : Nat) : (∃ y ∈ [x], Covers sha256 filter y j) ↔ (j : Int) ∈ indices := by
      simp [Covers.of_hash hhash]
    rw [Option.bind_eq_bind, Option.bind_some, Option.bind_eq_bind, Option.bind_eq_some_iff]
    constructor
    · rintro ⟨bits, hset, ⟨⟩⟩
      obtain ⟨hinside, hlength, hbits⟩ := setBits_eq_some_iff.mp hset
      refine ⟨fun y hy => ?_, rfl, hlength, fun j => by rw [hcovers, hbits]⟩
      rw [List.mem_singleton.mp hy]
      exact ⟨indices, hhash, hinside⟩
    · rintro ⟨haddable, hcount, hlength, hbits⟩
      obtain ⟨indices', hindices, hinside⟩ := haddable x (List.mem_singleton_self x)
      obtain rfl := Option.some.inj (hhash.symm.trans hindices)
      refine ⟨filter'.bits, setBits_eq_some_iff.mpr ⟨hinside, hlength, fun j => ?_⟩, ?_⟩
      · rw [hbits, hcovers]
      · rw [← hcount]
        rfl

/-- Adding changes neither what can be added nor where it goes. -/
theorem Added.addable_iff {inputs : List Bytes} (h : Added sha256 filter filter' inputs) (y : Bytes) :
    Addable sha256 filter' y ↔ Addable sha256 filter y := by
  simp only [Addable, hash_congr sha256 h.count h.length, Inside, h.length]

theorem Added.covers_iff {inputs : List Bytes} (h : Added sha256 filter filter' inputs) (y : Bytes)
    (j : Nat) : Covers sha256 filter' y j ↔ Covers sha256 filter y j := by
  simp only [Covers, hash_congr sha256 h.count h.length]

/-- Adding one more element before the others adds them all. -/
theorem Added.cons_iff {filter₁ : BloomFilter} {x : Bytes} {inputs : List Bytes}
    (h : Added sha256 filter filter₁ [x]) :
    Added sha256 filter₁ filter' inputs ↔ Added sha256 filter filter' (x :: inputs) := by
  have hfirst := h.addable x (List.mem_singleton_self x)
  have hbits₁ (j : Nat) : bitAt filter₁.bits j = true ↔ bitAt filter.bits j = true ∨ Covers sha256 filter x j := by
    simpa using h.bits j
  constructor
  · rintro ⟨hrest, hcount, hlength, hbits⟩
    refine ⟨?_, hcount.trans h.count, hlength.trans h.length, fun j => ?_⟩
    · rw [List.forall_mem_cons]
      exact ⟨hfirst, fun y hy => (h.addable_iff y).mp (hrest y hy)⟩
    · simp only [hbits, hbits₁, h.covers_iff, List.exists_mem_cons_iff, or_assoc]
  · rintro ⟨hall, hcount, hlength, hbits⟩
    refine ⟨fun y hy => (h.addable_iff y).mpr (hall y (List.mem_cons_of_mem x hy)),
      hcount.trans h.count.symm, hlength.trans h.length.symm, fun j => ?_⟩
    simp only [hbits, hbits₁, h.covers_iff, List.exists_mem_cons_iff, or_assoc]

theorem exists_addOne {x : Bytes} (h : Addable sha256 filter x) :
    ∃ filter₁, filter.addOne sha256 x = some filter₁ := by
  obtain ⟨indices, hhash, hinside⟩ := h
  obtain ⟨bits, hset⟩ := exists_setBits hinside
  refine ⟨{ filter with bits := bits }, ?_⟩
  rw [addOne, hhash, Option.bind_eq_bind, Option.bind_some, hset]
  rfl

theorem exists_add {inputs : List Bytes} (h : ∀ x ∈ inputs, Addable sha256 filter x) :
    ∃ filter', filter.add sha256 inputs = some filter' := by
  rw [add]
  induction inputs generalizing filter with
  | nil => exact ⟨filter, rfl⟩
  | cons x inputs ih =>
    rw [List.forall_mem_cons] at h
    obtain ⟨filter₁, hone⟩ := exists_addOne h.1
    have hadded := addOne_eq_some_iff.mp hone
    rw [List.foldlM_cons, hone]
    exact ih fun y hy => (hadded.addable_iff y).mpr (h.2 y hy)

/-- `Add` succeeds exactly on addable elements, and adds their positions. -/
theorem add_eq_some_iff {inputs : List Bytes} :
    filter.add sha256 inputs = some filter' ↔ Added sha256 filter filter' inputs := by
  rw [add]
  induction inputs generalizing filter with
  | nil =>
    rw [List.foldlM_nil, Option.pure_def, Option.some.injEq, Added.nil_iff, eq_comm]
  | cons x inputs ih =>
    rw [List.foldlM_cons, Option.bind_eq_bind, Option.bind_eq_some_iff]
    constructor
    · rintro ⟨filter₁, hone, hrest⟩
      exact (addOne_eq_some_iff.mp hone).cons_iff.mp (ih.mp hrest)
    · intro h
      obtain ⟨filter₁, hone⟩ := exists_addOne (h.addable x List.mem_cons_self)
      exact ⟨filter₁, hone, ih.mpr ((addOne_eq_some_iff.mp hone).cons_iff.mpr h)⟩

/-- Neither the order of the elements nor their repetition makes a difference. -/
theorem add_congr {inputs inputs' : List Bytes} (h : ∀ x, x ∈ inputs ↔ x ∈ inputs') :
    filter.add sha256 inputs = filter.add sha256 inputs' := by
  apply Option.ext
  intro filter'
  rw [add_eq_some_iff, add_eq_some_iff]
  constructor
  · rintro ⟨haddable, hcount, hlength, hbits⟩
    exact ⟨fun x hx => haddable x ((h x).mpr hx), hcount, hlength, by simpa only [h] using hbits⟩
  · rintro ⟨haddable, hcount, hlength, hbits⟩
    exact ⟨fun x hx => haddable x ((h x).mp hx), hcount, hlength, by simpa only [h] using hbits⟩

theorem add_perm {inputs inputs' : List Bytes} (h : inputs.Perm inputs') :
    filter.add sha256 inputs = filter.add sha256 inputs' := add_congr fun _ => h.mem_iff

end Elements

section Membership
variable {sha256 : Bytes → Nat} {filter : BloomFilter}

private theorem getBits_eq {bits : Bytes} {indices : List Int} (h : ∀ index ∈ indices, Inside bits index)
    (answer : Bool) :
    indices.foldlM (fun result index => do
      let bit ← getBit bits index
      return result && bit) answer = some (answer && indices.all (fun index => bitAt bits index.toNat)) := by
  induction indices generalizing answer with
  | nil => rw [List.foldlM_nil, List.all_nil, Bool.and_true, Option.pure_def]
  | cons index indices ih =>
    rw [List.forall_mem_cons] at h
    rw [List.foldlM_cons, getBit_eq h.1, List.all_cons, ← Bool.and_assoc]
    exact ih h.2 _

theorem check_eq {x : Bytes} (h : Addable sha256 filter x) :
    ∃ answer, filter.check sha256 x = some answer ∧
      (answer = true ↔ ∀ j, Covers sha256 filter x j → bitAt filter.bits j = true) := by
  obtain ⟨indices, hhash, hinside⟩ := h
  refine ⟨_, by rw [check, hhash, Option.bind_eq_bind, Option.bind_some, getBits_eq hinside], ?_⟩
  rw [Bool.true_and, List.all_eq_true]
  constructor
  · intro hall j hj
    exact hall j ((Covers.of_hash hhash).mp hj)
  · intro hall index hindex
    have hcast : (index.toNat : Int) = index := Int.toNat_of_nonneg (hinside index hindex).1
    exact hall _ ((Covers.of_hash hhash).mpr (hcast.symm ▸ hindex))

theorem intersect_eq {present : Bytes → Bool} {elements : List Bytes}
    (h : ∀ x ∈ elements, filter.check sha256 x = some (present x)) :
    filter.intersect sha256 elements =
      some ((elements.zipIdx.filter (fun p => present p.1)).map Prod.snd) := by
  have hfold (pairs : List (Bytes × Nat)) (hpairs : ∀ p ∈ pairs, p.1 ∈ elements) (res : List Nat) :
      pairs.foldlM (fun res p => do
        let present ← filter.check sha256 p.1
        return if present then res ++ [p.2] else res) res =
      some (res ++ (pairs.filter (fun p => present p.1)).map Prod.snd) := by
    induction pairs generalizing res with
    | nil => rw [List.foldlM_nil, List.filter_nil, List.map_nil, List.append_nil, Option.pure_def]
    | cons pair pairs ih =>
      rw [List.forall_mem_cons] at hpairs
      rw [List.foldlM_cons, List.filter_cons, h pair.1 hpairs.1]
      refine (ih hpairs.2 _).trans ?_
      cases present pair.1 <;> simp
  exact hfold elements.zipIdx (fun p hp => List.fst_mem_of_mem_zipIdx hp) []

/-- An element whose check is undefined makes the whole call so. -/
theorem intersect_undefined {x : Bytes} {elements : List Bytes} (hx : x ∈ elements)
    (h : filter.check sha256 x = none) : filter.intersect sha256 elements = none := by
  have hfold (pairs : List (Bytes × Nat)) (i : Nat) (hpair : (x, i) ∈ pairs) (res : List Nat) :
      pairs.foldlM (fun res p => do
        let present ← filter.check sha256 p.1
        return if present then res ++ [p.2] else res) res = none := by
    induction pairs generalizing res with
    | nil => exact absurd hpair List.not_mem_nil
    | cons pair pairs ih =>
      rw [List.foldlM_cons]
      rcases List.mem_cons.mp hpair with rfl | hpair
      · rw [h]
        rfl
      · cases hcheck : filter.check sha256 pair.1 with
        | none => rfl
        | some present => exact ih hpair _
  obtain ⟨i, hi⟩ := List.mem_iff_getElem?.mp hx
  exact hfold elements.zipIdx i (List.mem_zipIdx_iff_getElem?.mpr hi) []

end Membership

section Shape
variable (sha256 : Bytes → Nat) {filter : BloomFilter}

/-- A filter whose positions are all defined: it has bits, and the arithmetic stays within 64 bits. -/
structure Usable (filter : BloomFilter) : Prop where
  bits : filter.bits ≠ []
  count : 0 ≤ filter.numHashFunctions
  small : filter.numHashFunctions * (8 * filter.bits.length) < 2 ^ 63

def position (filter : BloomFilter) (x : Bytes) (i : Nat) : Nat :=
  let numBits := 8 * filter.bits.length
  (sha256 (0x31 :: x) % numBits + i * (sha256 (0x32 :: x) % numBits)) % numBits

/-- Where the largest sum stays within 64 bits, the positions are those of the unbounded arithmetic. -/
theorem hash_eq_of_small (hbits : filter.bits ≠ []) (hcount : 0 ≤ filter.numHashFunctions)
    (hsmall : filter.numHashFunctions * (8 * filter.bits.length - 1) < 2 ^ 63) (x : Bytes) :
    filter.hash sha256 x = some ((List.range filter.numHashFunctions.toNat).map
      (fun i => (position sha256 filter x i : Int))) := by
  obtain ⟨k, hk⟩ := Int.eq_ofNat_of_zero_le hcount
  have hpos : 0 < 8 * filter.bits.length := Nat.mul_pos (by decide) (List.length_pos_of_ne_nil hbits)
  have hnot : ¬ (8 * filter.bits.length = 0 ∨ filter.numHashFunctions < 0) := by
    rw [hk]
    omega
  have hcast : (8 * filter.bits.length - 1 : Int) = ((8 * filter.bits.length - 1 : Nat) : Int) := by omega
  rw [hk, hcast] at hsmall
  simp only [hash, position]
  rw [if_neg hnot, hk, Int.toNat_natCast]
  refine congrArg some (List.map_congr_left fun i hi => ?_)
  rw [List.mem_range] at hi
  generalize 8 * filter.bits.length = n at *
  have h₁ : sha256 (0x31 :: x) % n ≤ n - 1 := Nat.le_sub_one_of_lt (Nat.mod_lt _ hpos)
  have h₂ : sha256 (0x32 :: x) % n ≤ n - 1 := Nat.le_sub_one_of_lt (Nat.mod_lt _ hpos)
  generalize sha256 (0x31 :: x) % n = a at *
  generalize sha256 (0x32 :: x) % n = b at *
  have hsum : a + i * b ≤ k * (n - 1) := by
    calc a + i * b ≤ (n - 1) + i * (n - 1) := Nat.add_le_add h₁ (Nat.mul_le_mul_left i h₂)
      _ = (i + 1) * (n - 1) := by rw [Nat.succ_mul, Nat.add_comm]
      _ ≤ k * (n - 1) := Nat.mul_le_mul_right (n - 1) hi
  have hbound : k * (n - 1) < 2 ^ 63 := by exact_mod_cast hsmall
  rw [← Nat.cast_mul, int64_eq_self (x := (i * b : Nat)) (by omega) (by omega), ← Nat.cast_add,
    int64_eq_self (by omega) (by omega)]
  rfl

theorem addable_of_small (hbits : filter.bits ≠ []) (hcount : 0 ≤ filter.numHashFunctions)
    (hsmall : filter.numHashFunctions * (8 * filter.bits.length - 1) < 2 ^ 63) (x : Bytes) :
    Addable sha256 filter x := by
  have hpos : 0 < 8 * filter.bits.length := Nat.mul_pos (by decide) (List.length_pos_of_ne_nil hbits)
  refine ⟨_, hash_eq_of_small sha256 hbits hcount hsmall x, fun index hindex => ?_⟩
  obtain ⟨i, -, rfl⟩ := List.mem_map.mp hindex
  have hlt : position sha256 filter x i < 8 * filter.bits.length := Nat.mod_lt _ hpos
  rw [Inside]
  omega

theorem Usable.largest (h : Usable filter) :
    filter.numHashFunctions * (8 * filter.bits.length - 1) < 2 ^ 63 := by
  refine lt_of_le_of_lt ?_ h.small
  exact mul_le_mul_of_nonneg_left (by omega) h.count

theorem Usable.hash_eq (h : Usable filter) (x : Bytes) : filter.hash sha256 x =
    some ((List.range filter.numHashFunctions.toNat).map (fun i => (position sha256 filter x i : Int))) :=
  hash_eq_of_small sha256 h.bits h.count h.largest x

theorem Usable.addable (h : Usable filter) (x : Bytes) : Addable sha256 filter x :=
  addable_of_small sha256 h.bits h.count h.largest x

theorem Usable.covers_iff (h : Usable filter) (x : Bytes) (j : Nat) : Covers sha256 filter x j ↔
    ∃ i : Nat, (i : Int) < filter.numHashFunctions ∧ position sha256 filter x i = j := by
  rw [Covers.of_hash (h.hash_eq sha256 x)]
  simp only [List.mem_map, List.mem_range, Nat.cast_inj, Int.lt_toNat]

end Shape

section Created
variable {sha256 : Bytes → Nat} {D : Type} [DoubleArithmetic D]

theorem createEmpty_bits {fpr : D} {maxElements : Int} {filter : BloomFilter}
    (h : createEmpty fpr maxElements = .ok filter) (j : Nat) : bitAt filter.bits j = false := by
  rw [createEmpty] at h
  split at h
  · cases h
  · split at h
    · cases h
    · obtain ⟨numHashFunctions, -, h⟩ := StatusOr.bind_eq_ok.mp h
      obtain ⟨numBytes, -, h⟩ := StatusOr.bind_eq_ok.mp h
      split at h
      · cases h
      · cases h
        exact bitAt_replicate_zero _ _

/-- A rate that `Create` takes, with sizes it can cast to. Elements need bits, and sums of
positions that stay within 64 bits. -/
structure Accepts (fpr : D) (numClientInputs : Int) (elements : List Bytes) (numHashFunctions numBytes : Int) :
    Prop where
  rate : ¬ (DoubleArithmetic.le fpr (DoubleArithmetic.ofInt 0) = true ∨
    DoubleArithmetic.le (DoubleArithmetic.ofInt 1) fpr = true)
  hashes : DoubleArithmetic.toInt (DoubleArithmetic.ceil (DoubleArithmetic.neg (DoubleArithmetic.log2 fpr))) =
    some numHashFunctions
  bytes : DoubleArithmetic.toInt64 (DoubleArithmetic.ceil (DoubleArithmetic.div (DoubleArithmetic.div
    (DoubleArithmetic.mul (DoubleArithmetic.ofInt (-max numClientInputs elements.length))
      (DoubleArithmetic.log2 fpr)) (DoubleArithmetic.log (DoubleArithmetic.ofInt 2)))
    (DoubleArithmetic.ofInt 8))) = some numBytes
  nonneg : 0 ≤ numBytes
  sums : elements ≠ [] →
    0 < numBytes ∧ 0 ≤ numHashFunctions ∧ numHashFunctions * (8 * numBytes - 1) < 2 ^ 63

/-- With them the filter is created. -/
theorem Accepts.create {fpr : D} {numClientInputs : Int} {elements : List Bytes} {numHashFunctions numBytes : Int}
    (h : Accepts fpr numClientInputs elements numHashFunctions numBytes) :
    ∃ filter, create sha256 fpr numClientInputs elements = .ok filter := by
  have hmax : 0 ≤ max numClientInputs (elements.length : Int) := le_max_of_le_right (Int.natCast_nonneg _)
  have hempty : createEmpty fpr (max numClientInputs elements.length) =
      .ok ⟨numHashFunctions, List.replicate numBytes.toNat 0⟩ := by
    rw [createEmpty, if_neg h.rate, if_neg (not_lt.mpr hmax), h.hashes, h.bytes]
    simp only [StatusOr.ofOption_some, StatusOr.ok_bind, if_neg (not_lt.mpr h.nonneg), StatusOr.pure_eq]
  have haddable : ∀ x ∈ elements, Addable sha256 ⟨numHashFunctions, List.replicate numBytes.toNat 0⟩ x := by
    intro x hx
    obtain ⟨hbytes, hcount, hsmall⟩ := h.sums (List.ne_nil_of_mem hx)
    have hlength : ((List.replicate numBytes.toNat (0 : UInt8)).length : Int) = numBytes := by
      rw [List.length_replicate]
      omega
    have hbits : List.replicate numBytes.toNat (0 : UInt8) ≠ [] := by
      rw [Ne, List.replicate_eq_nil_iff]
      omega
    rw [← hlength] at hsmall
    exact @addable_of_small sha256 ⟨numHashFunctions, _⟩ hbits hcount hsmall x
  obtain ⟨filter, hadd⟩ := exists_add haddable
  refine ⟨filter, ?_⟩
  rw [BloomFilter.create, hempty, StatusOr.ok_bind, hadd]
  rfl

theorem create_bits {fpr : D} {numClientInputs : Int} {elements : List Bytes} {filter : BloomFilter}
    (h : create sha256 fpr numClientInputs elements = .ok filter) (j : Nat) :
    bitAt filter.bits j = true ↔ ∃ x ∈ elements, Covers sha256 filter x j := by
  rw [create] at h
  obtain ⟨empty, hempty, h⟩ := StatusOr.bind_eq_ok.mp h
  obtain ⟨-, hcount, hlength, hbits⟩ := add_eq_some_iff.mp (StatusOr.ofOption_eq_ok.mp h)
  have hhash := hash_congr sha256 hcount hlength
  rw [hbits, createEmpty_bits hempty]
  simp only [Covers, hhash, Bool.false_eq_true, false_or]

theorem check_of_mem {fpr : D} {numClientInputs : Int} {elements : List Bytes} {filter : BloomFilter}
    (h : create sha256 fpr numClientInputs elements = .ok filter) (husable : Usable filter) {x : Bytes}
    (hx : x ∈ elements) : filter.check sha256 x = some true := by
  obtain ⟨answer, hcheck, hiff⟩ := check_eq (husable.addable sha256 x)
  rw [hcheck, hiff.mpr fun j hj => (create_bits h j).mpr ⟨x, hx, hj⟩]

end Created

end BloomFilter
end PrivateSetIntersection
