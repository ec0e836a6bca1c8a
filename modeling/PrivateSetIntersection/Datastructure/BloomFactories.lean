import PrivateSetIntersection.Datastructure.BloomMembership

/-! The filters the factories of `BloomFilter` return: which of them can be used with every
string, and for which arguments only such filters are returned. -/
namespace PrivateSetIntersection
open Library BitString ExtendedReal

namespace BloomFilter

section Serviceable
variable {sha256 : Bytes → Nat} {filter : BloomFilter}

/-- A filter with hash functions and bits that can be added to at will, and in which every
string then has its positions, all of them inside. -/
structure Serviceable (sha256 : Bytes → Nat) (filter : BloomFilter) : Prop where
  count : 1 ≤ filter.numHashFunctions
  bits : filter.bits ≠ []
  lasting : ∀ inputs, ∃ filter', filter.add sha256 inputs = some filter' ∧
    filter'.numHashFunctions = filter.numHashFunctions ∧
    filter'.bits.length = filter.bits.length ∧ ∀ x, Addable sha256 filter' x

/-- Adding takes nothing away from a filter, so what it is to begin with is enough. -/
theorem serviceable_iff : Serviceable sha256 filter ↔
    1 ≤ filter.numHashFunctions ∧ filter.bits ≠ [] ∧ ∀ x, Addable sha256 filter x := by
  constructor
  · rintro ⟨hcount, hbits, hlasting⟩
    obtain ⟨filter', hadd, -, -, haddable⟩ := hlasting []
    cases hadd
    exact ⟨hcount, hbits, haddable⟩
  · rintro ⟨hcount, hbits, haddable⟩
    refine ⟨hcount, hbits, fun inputs => ?_⟩
    obtain ⟨filter', hadd⟩ : ∃ filter', filter.add sha256 inputs = some filter' :=
      exists_add fun x _ => haddable x
    have hadded := add_eq_some_iff.mp hadd
    exact ⟨filter', hadd, hadded.count, hadded.length, fun x => (hadded.addable_iff x).mpr (haddable x)⟩

end Serviceable

section Overflow
variable {filter : BloomFilter}

/-- A sum from `2 ^ 63` on wraps to a negative one, and so does its remainder. -/
private theorem wrapped_neg {v n : Nat} (hlo : 2 ^ 63 ≤ v) (hhi : v < 2 ^ 64)
    (hdvd : ¬ (n : Int) ∣ 2 ^ 64 - v) : (int64 v).tmod n < 0 := by
  have hwrap : int64 v = -(2 ^ 64 - v) := by
    have hmod : int64 v = ((v : Int) - 2 ^ 64).bmod (2 ^ 64) := by
      rw [int64, ← Int.sub_bmod_right]
      rfl
    rw [hmod, Int.bmod_eq_of_le (by omega) (by omega)]
    omega
  have hrem : (0 : Int) < (2 ^ 64 - v : Int).tmod n := by
    refine lt_of_le_of_ne (Int.tmod_nonneg _ (by omega)) fun hzero => ?_
    exact hdvd (Int.dvd_of_tmod_eq_zero hzero.symm)
  rw [hwrap, Int.neg_tmod]
  omega

private theorem not_dvd_neighbour {n : Nat} (hn : 1 < n) (v : Int) : ¬ (n : Int) ∣ v ∨ ¬ (n : Int) ∣ v + 1 := by
  by_contra hboth
  push Not at hboth
  have hone : (n : Int) ∣ 1 := by simpa using dvd_sub hboth.2 hboth.1
  have := Int.le_of_dvd one_pos hone
  omega

/-- The number of bits less one is odd, so no multiple of it is `2 ^ 63`. -/
private theorem not_dvd_pow {n : Nat} (hn : 8 ∣ n) (hpos : 0 < n) : ¬ n - 1 ∣ 2 ^ 63 := by
  intro hdvd
  obtain ⟨j, -, hj⟩ := (Nat.dvd_prime_pow Nat.prime_two).mp hdvd
  cases j with
  | zero =>
    rw [pow_zero] at hj
    omega
  | succ j =>
    rw [pow_succ] at hj
    omega

/-- Where the largest sum leaves 64 bits, some sum wraps to a remainder below zero. -/
private theorem exists_wrapped {n k : Nat} (hn : 8 ∣ n) (hpos : 0 < n) (hk : 1 ≤ k)
    (hlarge : 2 ^ 63 ≤ k * (n - 1)) :
    ∃ i < k, ∃ a < n, (int64 (a + int64 (i * (n - 1) : Nat))).tmod n < 0 := by
  suffices h : ∃ i < k, ∃ a < n, 2 ^ 63 ≤ a + i * (n - 1) ∧ a + i * (n - 1) < 2 ^ 64 ∧
      ¬ (n : Int) ∣ 2 ^ 64 - (a + i * (n - 1) : Nat) by
    obtain ⟨i, hi, a, ha, hlo, hhi, hdvd⟩ := h
    have hsum : int64 (a + int64 (i * (n - 1) : Nat)) = int64 (a + i * (n - 1) : Nat) := by
      rw [int64, int64, int64, Int.add_bmod_bmod, ← Nat.cast_add]
    refine ⟨i, hi, a, ha, ?_⟩
    rw [hsum]
    exact wrapped_neg hlo hhi hdvd
  rcases le_or_gt n (2 ^ 63) with hsmall | hhuge
  · -- the first sum from `2 ^ 63` on, or the one below it
    have hfloor := Nat.div_mul_le_self (2 ^ 63) (n - 1)
    have hnext : 2 ^ 63 < 2 ^ 63 / (n - 1) * (n - 1) + (n - 1) :=
      Nat.lt_div_mul_add (by omega)
    generalize 2 ^ 63 / (n - 1) = q at hfloor hnext
    have hq : q < k := by
      by_contra hqk
      have hmul := Nat.mul_le_mul_right (n - 1) (not_lt.mp hqk)
      exact not_dvd_pow hn hpos ⟨k, by rw [Nat.mul_comm]; omega⟩
    rcases not_dvd_neighbour (n := n) (by omega) (2 ^ 64 - (n - 1 + q * (n - 1) : Nat)) with hdvd | hdvd
    · exact ⟨q, hq, n - 1, by omega, by omega, by omega, hdvd⟩
    · refine ⟨q, hq, n - 2, by omega, by omega, by omega, ?_⟩
      have hbelow : (2 ^ 64 - (n - 1 + q * (n - 1) : Nat) : Int) + 1 = 2 ^ 64 - (n - 2 + q * (n - 1) : Nat) := by
        omega
      rwa [hbelow] at hdvd
  · -- a single hash is too large
    refine ⟨0, hk, 2 ^ 63, hhuge, by omega, by omega, fun hdvd => ?_⟩
    rw [Nat.zero_mul] at hdvd
    have := Int.le_of_dvd (by norm_num) hdvd
    norm_num at this
    omega

/-- With such sizes there is a digest under which a string has a position outside, while every
other string has all its positions at the first bit. -/
theorem exists_not_addable (hcount : 1 ≤ filter.numHashFunctions) (hbits : filter.bits ≠ [])
    (hlarge : 2 ^ 63 ≤ filter.numHashFunctions * (8 * filter.bits.length - 1)) (x : Bytes) :
    ∃ sha256, ¬ Addable sha256 filter x ∧ ∀ y, y ≠ x → Addable sha256 filter y := by
  obtain ⟨k, hk⟩ := Int.eq_ofNat_of_zero_le (zero_le_one.trans hcount)
  have hpos : 0 < 8 * filter.bits.length := Nat.mul_pos (by decide) (List.length_pos_of_ne_nil hbits)
  have hnot : ¬ (8 * filter.bits.length = 0 ∨ filter.numHashFunctions < 0) := by omega
  have hcast : (8 * filter.bits.length - 1 : Int) = ((8 * filter.bits.length - 1 : Nat) : Int) := by omega
  rw [hk, hcast] at hlarge
  obtain ⟨i, hi, a, ha, hwrapped⟩ := exists_wrapped (n := 8 * filter.bits.length) (k := k)
    (Nat.dvd_mul_right 8 _) hpos (by omega) (by exact_mod_cast hlarge)
  refine ⟨fun s => if s = 0x31 :: x then a else if s = 0x32 :: x then 8 * filter.bits.length - 1 else 0,
    ?_, fun y hy => ?_⟩
  · rintro ⟨indices, hhash, hinside⟩
    rw [hash, if_neg hnot] at hhash
    have hindex := hinside _ (Option.some.inj hhash ▸ List.mem_map_of_mem (List.mem_range.mpr
      (show i < filter.numHashFunctions.toNat by omega)))
    have hsecond : ¬ (0x32 :: x : Bytes) = 0x31 :: x := fun h => absurd (List.cons.inj h).1 (by decide)
    rw [if_pos rfl, if_neg hsecond, if_pos rfl, Nat.mod_eq_of_lt ha,
      Nat.mod_eq_of_lt (Nat.sub_lt hpos one_pos), ← Nat.cast_mul] at hindex
    exact absurd hindex.1 (not_le.mpr hwrapped)
  · have hother : ∀ b : UInt8, (b :: y : Bytes) ≠ 0x31 :: x ∧ (b :: y : Bytes) ≠ 0x32 :: x := fun b =>
      ⟨fun h => hy (List.cons.inj h).2, fun h => hy (List.cons.inj h).2⟩
    refine ⟨_, if_neg hnot, fun index hindex => ?_⟩
    obtain ⟨j, -, rfl⟩ := List.mem_map.mp hindex
    dsimp only
    rw [if_neg (hother 0x31).1, if_neg (hother 0x31).2, if_neg (hother 0x32).1, if_neg (hother 0x32).2,
      Nat.zero_mod, Nat.cast_zero, mul_zero, zero_add, show int64 (int64 0) = 0 by decide, Int.zero_tmod]
    exact ⟨Int.le_refl 0, by omega⟩

theorem forall_serviceable_iff : (∀ sha256, Serviceable sha256 filter) ↔
    1 ≤ filter.numHashFunctions ∧ filter.bits ≠ [] ∧
      filter.numHashFunctions * (8 * filter.bits.length - 1) < 2 ^ 63 := by
  constructor
  · intro h
    have hcount := (h fun _ => 0).count
    have hbits := (h fun _ => 0).bits
    refine ⟨hcount, hbits, not_le.mp fun hlarge => ?_⟩
    obtain ⟨sha256, hnot, -⟩ := exists_not_addable hcount hbits hlarge []
    exact hnot ((serviceable_iff.mp (h sha256)).2.2 [])
  · rintro ⟨hcount, hbits, hsmall⟩ sha256
    exact serviceable_iff.mpr ⟨hcount, hbits,
      addable_of_small sha256 hbits (zero_le_one.trans hcount) hsmall⟩

/-- Adding elements to a filter makes it neither more nor less of use, provided that it has
room for them. -/
theorem forall_added_serviceable_iff {elements : List Bytes} (hcount : 1 ≤ filter.numHashFunctions)
    (hroom : elements ≠ [] → filter.bits ≠ []) :
    (∀ sha256 filter', filter.add sha256 elements = some filter' → Serviceable sha256 filter') ↔
      ∀ sha256, Serviceable sha256 filter := by
  constructor
  · intro h
    by_cases hempty : elements = []
    · exact fun sha256 => h sha256 filter (by rw [hempty]; rfl)
    · refine forall_serviceable_iff.mpr ⟨hcount, hroom hempty, not_le.mp fun hlarge => ?_⟩
      -- a digest that is well behaved on the elements, and not on some other string
      obtain ⟨x, hx⟩ := Infinite.exists_notMem_finset elements.toFinset
      rw [List.mem_toFinset] at hx
      obtain ⟨sha256, hnot, hall⟩ := exists_not_addable hcount (hroom hempty) hlarge x
      have helements : ∀ y ∈ elements, Addable sha256 filter y := fun y hy =>
        hall y fun hyx => hx (hyx ▸ hy)
      obtain ⟨filter', hadd⟩ := exists_add helements
      have hserviceable := serviceable_iff.mp (h sha256 filter' hadd)
      exact hnot (((add_eq_some_iff.mp hadd).addable_iff x).mp (hserviceable.2.2 x))
  · intro h sha256 filter' hadd
    obtain ⟨-, hbits, haddable⟩ := serviceable_iff.mp (h sha256)
    have hadded := add_eq_some_iff.mp hadd
    refine serviceable_iff.mpr ⟨hcount.trans_eq hadded.count.symm, ?_, fun x =>
      (hadded.addable_iff x).mpr (haddable x)⟩
    rw [← List.length_pos_iff] at hbits ⊢
    rwa [hadded.length]

end Overflow

def ReturnsServiceable (call : (Bytes → Nat) → StatusOr BloomFilter) : Prop :=
  ∀ sha256 filter, call sha256 = .ok filter → Serviceable sha256 filter

def Refused (call : StatusOr BloomFilter) : Prop :=
  ∃ message, call = .error (invalidArgumentError message)

/-- Received filters are not checked, so the message has to be right. -/
theorem createFromProtobuf_serviceable_iff (info : BloomFilterInfo) :
    (ReturnsServiceable (fun _ => createFromProtobuf (.bloomFilter info)) ∧
        (info.numHashFunctions ≤ 0 ∨ info.bits = [] → Refused (createFromProtobuf (.bloomFilter info)))) ↔
      1 ≤ info.numHashFunctions ∧ info.bits ≠ [] ∧
        info.numHashFunctions * (8 * info.bits.length - 1) < 2 ^ 63 := by
  have hresult : createFromProtobuf (.bloomFilter info) = .ok ⟨info.numHashFunctions, info.bits⟩ := rfl
  have hserviceable : ReturnsServiceable (fun _ => createFromProtobuf (.bloomFilter info)) ↔
      ∀ sha256, Serviceable sha256 ⟨info.numHashFunctions, info.bits⟩ := by
    simp only [ReturnsServiceable, hresult, StatusOr.ok.injEq, forall_eq']
  rw [hserviceable, forall_serviceable_iff]
  refine ⟨fun h => h.1, fun h => ⟨h, ?_⟩⟩
  rintro (hcount | hbits)
  · exact absurd h.1 (not_le.mpr (by omega))
  · exact absurd hbits h.2.1

section Formulas
variable {D : Type} [DoubleArithmetic D] {fpr : D} {hashes : Int} {bytes : Int → Int}
open DoubleArithmetic

/-- What the formulas of `CreateEmpty` give for an accepted rate, the size before its cast.
All that is used of the size is that no element takes no bytes and some take some. -/
structure Formulas (fpr : D) (hashes : Int) (bytes : Int → Int) : Prop where
  rate : ¬ (le fpr (ofInt 0) ∨ le (ofInt 1) fpr)
  hashes_eq : toInt (ceil (neg (log2 fpr))) = some hashes
  hashes_pos : 1 ≤ hashes
  bytes_eq : ∀ n, 0 ≤ n → toInt64 (ceil
      (div (div (mul (ofInt (-n)) (log2 fpr)) (log (ofInt 2))) (ofInt 8))) =
    if bytes n < 2 ^ 63 then some (bytes n) else none
  bytes_zero : bytes 0 = 0
  bytes_pos : ∀ n, 0 < n → 0 < bytes n

theorem Formulas.bytes_nonneg (h : Formulas fpr hashes bytes) {n : Int} (hn : 0 ≤ n) : 0 ≤ bytes n := by
  rcases hn.eq_or_lt with rfl | hpos
  · exact h.bytes_zero.ge
  · exact (h.bytes_pos n hpos).le

theorem Formulas.createEmpty_eq (h : Formulas fpr hashes bytes) {n : Int} (hn : 0 ≤ n) :
    createEmpty fpr n = if bytes n < 2 ^ 63 then .ok ⟨hashes, List.replicate (bytes n).toNat 0⟩
      else .undefined := by
  have hbytes := h.bytes_nonneg hn
  rw [createEmpty, if_neg h.rate, if_neg (not_lt.mpr hn), h.hashes_eq, h.bytes_eq n hn]
  split
  · simp [not_lt.mpr hbytes]
  · rfl

/-- What must hold of the sizes of a filter, if there is one of these sizes. -/
def SumsFit (hashes bytes : Int) : Prop := bytes < 2 ^ 63 → hashes * (8 * bytes - 1) < 2 ^ 63

private theorem Formulas.serviceable_iff (h : Formulas fpr hashes bytes) {n : Int} (hn : 0 ≤ n) :
    (∀ sha256, Serviceable sha256 ⟨hashes, List.replicate (bytes n).toNat 0⟩) ↔
      0 < n ∧ hashes * (8 * bytes n - 1) < 2 ^ 63 := by
  have hbytes := h.bytes_nonneg hn
  have hempty : List.replicate (bytes n).toNat (0 : UInt8) ≠ [] ↔ 0 < n := by
    rw [Ne, List.replicate_eq_nil_iff]
    rcases hn.eq_or_lt with rfl | hpos
    · simp [h.bytes_zero]
    · have := h.bytes_pos n hpos
      omega
  have hlength : ((List.replicate (bytes n).toNat (0 : UInt8)).length : Int) = bytes n := by
    rw [List.length_replicate]
    omega
  rw [forall_serviceable_iff]
  dsimp only
  rw [hempty, hlength, and_iff_right h.hashes_pos]

/-- `CreateEmpty` refuses a negative number of elements, and not zero of them. -/
theorem Formulas.createEmpty_serviceable_iff (h : Formulas fpr hashes bytes) (maxElements : Int) :
    (ReturnsServiceable (fun _ => createEmpty fpr maxElements) ∧
        (maxElements ≤ 0 → Refused (createEmpty fpr maxElements))) ↔
      maxElements < 0 ∨ 0 < maxElements ∧ SumsFit hashes (bytes maxElements) := by
  rcases lt_or_ge maxElements 0 with hneg | hn
  · have hrefused : createEmpty fpr maxElements =
        .error (invalidArgumentError "`max_elements` must be positive") := by
      rw [createEmpty, if_neg h.rate, if_pos hneg]
    refine iff_of_true ⟨fun sha256 filter hfilter => ?_, fun _ => ⟨_, hrefused⟩⟩ (Or.inl hneg)
    rw [hrefused] at hfilter
    cases hfilter
  · have hserviceable := h.serviceable_iff hn
    rw [or_iff_right (not_lt.mpr hn), ReturnsServiceable, Refused, h.createEmpty_eq hn, SumsFit]
    split <;> rename_i hcast
    · simp only [StatusOr.ok.injEq, forall_eq', hserviceable, reduceCtorEq, exists_false, imp_false,
        hcast, true_imp_iff]
      omega
    · have hpos : 0 < maxElements := by
        refine lt_of_le_of_ne hn ?_
        rintro rfl
        rw [h.bytes_zero] at hcast
        exact hcast (by norm_num)
      refine iff_of_true ⟨fun sha256 filter hfilter => ?_, fun hle => absurd hpos (not_lt.mpr hle)⟩
        ⟨hpos, fun hlt => absurd hlt hcast⟩
      cases hfilter

/-- `Create` asks for room for the larger set, which may be empty. -/
theorem Formulas.create_serviceable_iff (h : Formulas fpr hashes bytes) (numClientInputs : Int)
    (elements : List Bytes) :
    ReturnsServiceable (fun sha256 => create sha256 fpr numClientInputs elements) ↔
      0 < max numClientInputs elements.length ∧
        SumsFit hashes (bytes (max numClientInputs elements.length)) := by
  have hn : 0 ≤ max numClientInputs elements.length := le_max_of_le_right (Int.natCast_nonneg _)
  have hcreate (sha256 : Bytes → Nat) : create sha256 fpr numClientInputs elements =
      (createEmpty fpr (max numClientInputs elements.length) >>= fun filter =>
        StatusOr.ofOption (filter.add sha256 elements)) := rfl
  have hlarger : (elements.length : Int) ≤ max numClientInputs elements.length := le_max_right _ _
  simp only [ReturnsServiceable, hcreate, h.createEmpty_eq hn, SumsFit]
  generalize max numClientInputs (elements.length : Int) = n at hn hlarger ⊢
  split <;> rename_i hcast
  · have hroom : elements ≠ [] → List.replicate (bytes n).toNat (0 : UInt8) ≠ [] := by
      intro hne
      have hpos := h.bytes_pos n (lt_of_lt_of_le (by exact_mod_cast List.length_pos_of_ne_nil hne) hlarger)
      rw [Ne, List.replicate_eq_nil_iff]
      omega
    simp only [StatusOr.ok_bind, StatusOr.ofOption_eq_ok, hcast, true_imp_iff]
    rw [@forall_added_serviceable_iff ⟨hashes, _⟩ elements h.hashes_pos hroom, h.serviceable_iff hn]
  · have hpos : 0 < n := by
      refine lt_of_le_of_ne hn ?_
      rintro rfl
      rw [h.bytes_zero] at hcast
      exact hcast (by norm_num)
    exact iff_of_true (fun sha256 filter hfilter => by cases hfilter) ⟨hpos, fun hlt => absurd hlt hcast⟩

end Formulas

section Rates
variable {fpr : ℝ}

noncomputable def hashesFor (fpr : ℝ) : Int := ⌈-Real.logb (2 : ℕ) fpr⌉

noncomputable def bytesFor (fpr : ℝ) (maxElements : Int) : Int :=
  ⌈-(maxElements : ℝ) * Real.logb (2 : ℕ) fpr / Real.log (2 : ℕ) / (8 : ℕ)⌉

theorem hashesFor_eq (fpr : ℝ) : hashesFor fpr = ⌈-Real.logb 2 fpr⌉ := by rw [hashesFor, Nat.cast_ofNat]

theorem bytesFor_eq (fpr : ℝ) (maxElements : Int) :
    bytesFor fpr maxElements = ⌈-(maxElements : ℝ) * Real.logb 2 fpr / Real.log 2 / 8⌉ := by
  simp only [bytesFor, Nat.cast_ofNat]

/-- The rates that a `double` can hold between zero and one. -/
structure ProperRate (fpr : ℝ) : Prop where
  least : 1 / 2 ^ 1074 ≤ fpr
  lt_one : fpr < 1

theorem ProperRate.pos (h : ProperRate fpr) : 0 < fpr := lt_of_lt_of_le (by positivity) h.least

theorem ProperRate.logb_neg (h : ProperRate fpr) : Real.logb 2 fpr < 0 :=
  Real.logb_neg one_lt_two h.pos h.lt_one

theorem ProperRate.hashesFor_bounds (h : ProperRate fpr) : 1 ≤ hashesFor fpr ∧ hashesFor fpr ≤ 1074 := by
  have hleast : -1074 ≤ Real.logb 2 fpr := by
    calc (-1074 : ℝ) = Real.logb 2 (1 / 2 ^ 1074) := by
          rw [one_div, Real.logb_inv, Real.logb_pow, Real.logb_self_eq_one one_lt_two]
          norm_num
      _ ≤ Real.logb 2 fpr := Real.logb_le_logb_of_le one_lt_two (by positivity) h.least
  rw [hashesFor_eq]
  constructor
  · exact Int.one_le_ceil_iff.mpr (neg_pos.mpr h.logb_neg)
  · refine Int.ceil_le.mpr ?_
    push_cast
    linarith

theorem bytesFor_zero (fpr : ℝ) : bytesFor fpr 0 = 0 := by simp [bytesFor]

theorem ProperRate.bytesFor_pos (h : ProperRate fpr) {n : Int} (hn : 0 < n) : 0 < bytesFor fpr n := by
  have hcast : (0 : ℝ) < n := by exact_mod_cast hn
  have hlog : 0 < Real.log 2 := Real.log_pos one_lt_two
  have hproduct : 0 < -n * Real.logb 2 fpr := mul_pos_of_neg_of_neg (neg_lt_zero.mpr hcast) h.logb_neg
  rw [bytesFor_eq]
  exact Int.ceil_pos.mpr (by positivity)

theorem ProperRate.formulas (h : ProperRate fpr) :
    Formulas (real fpr) (hashesFor fpr) (bytesFor fpr) where
  rate := by
    simp only [DoubleArithmetic.le, DoubleArithmetic.ofInt, ExtendedReal.le, decide_eq_true_eq,
      Int.cast_zero, Int.cast_one, not_or, not_le]
    exact ⟨h.pos, h.lt_one⟩
  hashes_eq := by
    obtain ⟨hlo, hhi⟩ := h.hashesFor_bounds
    have hlog : DoubleArithmetic.log2 (real fpr) = real (Real.logb 2 fpr) := log2_pos h.pos
    rw [hashesFor_eq] at hlo hhi ⊢
    rw [hlog]
    exact toWord_intCast (zero_le_one.trans hlo) (lt_of_le_of_lt hhi (by norm_num))
  hashes_pos := h.hashesFor_bounds.1
  bytes_eq n hn := by
    have hsize : DoubleArithmetic.div (DoubleArithmetic.div (DoubleArithmetic.mul
        (DoubleArithmetic.ofInt (-n)) (DoubleArithmetic.log2 (real fpr)))
        (DoubleArithmetic.log (DoubleArithmetic.ofInt 2))) (DoubleArithmetic.ofInt 8) =
          real (-(n : ℝ) * Real.logb 2 fpr / Real.log 2 / 8) := by
      have hlog : Real.log 2 ≠ 0 := (Real.log_pos one_lt_two).ne'
      have hlog2 : DoubleArithmetic.log2 (real fpr) = real (Real.logb 2 fpr) := log2_pos h.pos
      have htwo : DoubleArithmetic.log (DoubleArithmetic.ofInt 2 : ExtendedReal) = real (Real.log 2) := by
        exact_mod_cast log_pos (x := 2) two_pos
      have hproduct : DoubleArithmetic.mul (DoubleArithmetic.ofInt (-n)) (real (Real.logb 2 fpr)) =
          real (-(n : ℝ) * Real.logb 2 fpr) := by
        rw [← Int.cast_neg]
        rfl
      rw [hlog2, htwo, hproduct]
      refine (congrArg (DoubleArithmetic.div · _) (div_real hlog)).trans ?_
      exact div_real (by norm_num)
    have hbytes : 0 ≤ bytesFor fpr n := by
      rcases hn.eq_or_lt with rfl | hpos
      · exact (bytesFor_zero fpr).ge
      · exact (h.bytesFor_pos hpos).le
    rw [bytesFor_eq] at hbytes ⊢
    rw [hsize]
    split <;> rename_i hcast
    · exact toWord_intCast hbytes hcast
    · have hlarge : (2 ^ 63 : ℝ) ≤ (⌈-(n : ℝ) * Real.logb 2 fpr / Real.log 2 / 8⌉ : Int) := by
        exact_mod_cast not_lt.mp hcast
      exact toWord_eq_none hlarge
  bytes_zero := bytesFor_zero fpr
  bytes_pos _ hn := h.bytesFor_pos hn

/-- Each factory returns only filters that can be used, and refuses what it is documented to,
exactly for arguments that give the filter hash functions, bits, and sums within 64 bits. -/
theorem factories_serviceable_iff (h : ProperRate fpr) (maxElements numClientInputs : Int)
    (elements : List Bytes) (info : BloomFilterInfo) :
    ((ReturnsServiceable (fun _ => createEmpty (real fpr) maxElements) ∧
        (maxElements ≤ 0 → Refused (createEmpty (real fpr) maxElements))) ↔
      maxElements < 0 ∨
        0 < maxElements ∧ SumsFit (hashesFor fpr) (bytesFor fpr maxElements)) ∧
    (ReturnsServiceable (fun sha256 => create sha256 (real fpr) numClientInputs elements) ↔
      0 < max numClientInputs elements.length ∧
        SumsFit (hashesFor fpr) (bytesFor fpr (max numClientInputs elements.length))) ∧
    ((ReturnsServiceable (fun _ => createFromProtobuf (.bloomFilter info)) ∧
        (info.numHashFunctions ≤ 0 ∨ info.bits = [] →
          Refused (createFromProtobuf (.bloomFilter info)))) ↔
      1 ≤ info.numHashFunctions ∧ info.bits ≠ [] ∧
        info.numHashFunctions * (8 * info.bits.length - 1) < 2 ^ 63) :=
  ⟨h.formulas.createEmpty_serviceable_iff maxElements,
    h.formulas.create_serviceable_iff numClientInputs elements,
    createFromProtobuf_serviceable_iff info⟩

theorem properRate_half : ProperRate (1 / 2) where
  least := by
    refine one_div_le_one_div_of_le two_pos ?_
    calc (2 : ℝ) = 2 ^ 1 := (pow_one 2).symm
      _ ≤ 2 ^ 1074 := pow_le_pow_right₀ one_le_two (by decide)
  lt_one := by norm_num

/-- At one in two there is one hash function, and less than a byte for each element. -/
theorem sumsFit_half {n : Int} (hn : 0 ≤ n) (hle : n < 2 ^ 60) :
    SumsFit (hashesFor (1 / 2)) (bytesFor (1 / 2) n) := by
  have hlogb : Real.logb 2 (1 / 2) = -1 := by
    rw [one_div, Real.logb_inv, Real.logb_self_eq_one one_lt_two]
  have hlog : (1 : ℝ) / 8 ≤ Real.log 2 := by
    have := Real.log_two_gt_d9
    linarith
  have hhashes : hashesFor (1 / 2) = 1 := by
    rw [hashesFor_eq, hlogb, neg_neg]
    exact Int.ceil_one
  have hbytes : bytesFor (1 / 2) n ≤ n := by
    have hcast : (0 : ℝ) ≤ n := by exact_mod_cast hn
    rw [bytesFor_eq, hlogb, Int.ceil_le, neg_mul_neg, mul_one, div_div, div_le_iff₀ (by positivity)]
    exact le_mul_of_one_le_right hcast (by linarith)
  intro _
  rw [hhashes]
  omega

/-- One in two: room for ten elements or for one, a message with one byte of bits, and no room
at all. -/
theorem factories_serviceable_iff_half :
    ReturnsServiceable (fun _ => createEmpty (real (1 / 2)) 10) ∧
      ReturnsServiceable (fun sha256 => create sha256 (real (1 / 2)) 0 [[1]]) ∧
      ReturnsServiceable (fun _ => createFromProtobuf (.bloomFilter ⟨2, [5]⟩)) ∧
      ¬ ReturnsServiceable (fun sha256 => create sha256 (real (1 / 2)) 0 []) := by
  obtain ⟨hempty, hcreate, hmessage⟩ := factories_serviceable_iff properRate_half 10 0 [[1]] ⟨2, [5]⟩
  obtain ⟨-, hnone, -⟩ := factories_serviceable_iff properRate_half 10 0 [] ⟨2, [5]⟩
  refine ⟨(hempty.mpr (.inr ⟨by decide, ?_⟩)).1, hcreate.mpr ⟨by decide, ?_⟩, (hmessage.mpr (by decide)).1,
    fun h => absurd (hnone.mp h).1 (by decide)⟩
  · exact sumsFit_half (by decide) (by decide)
  · exact sumsFit_half (by decide) (by decide)

/-- No room for anything, no hash function, a negative number of them, no bits: all are
returned as filters. -/
theorem unusable_filters_returned :
    ¬ (ReturnsServiceable (fun _ => createEmpty (real (1 / 2)) 0) ∧
        ((0 : Int) ≤ 0 → Refused (createEmpty (real (1 / 2)) 0))) ∧
      createFromProtobuf (.bloomFilter ⟨0, [0]⟩) = .ok ⟨0, [0]⟩ ∧
      (∀ sha256 x, check sha256 ⟨0, [0]⟩ x = some true) ∧
      createFromProtobuf (.bloomFilter ⟨-1, [0]⟩) = .ok ⟨-1, [0]⟩ ∧
      (∀ sha256 x, hash sha256 ⟨-1, [0]⟩ x = none) ∧
      createFromProtobuf (.bloomFilter ⟨1, []⟩) = .ok ⟨1, []⟩ ∧
      ∀ sha256 x, hash sha256 ⟨1, []⟩ x = none := by
  refine ⟨?_, rfl, fun _ _ => rfl, rfl, fun _ _ => rfl, rfl, fun _ _ => rfl⟩
  rintro ⟨-, hrefused⟩
  obtain ⟨message, hmessage⟩ := hrefused (le_refl 0)
  rw [properRate_half.formulas.createEmpty_eq (le_refl 0), bytesFor_zero, if_pos (by norm_num)] at hmessage
  cases hmessage

end Rates

end BloomFilter
end PrivateSetIntersection
