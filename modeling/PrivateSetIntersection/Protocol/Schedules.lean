import PrivateSetIntersection.Protocol.ParallelEc

/-! Every interleaving of the sharded transform gives what the sequential loop gives:
the shards cut the index range, and none sees another's part of the outputs. -/
namespace PrivateSetIntersection
open Library

namespace ParallelEc

section Cuts

def cut (n numThreads t : Nat) : Nat := n / numThreads * t + min t (n % numThreads)

@[simp] theorem cut_zero (n numThreads : Nat) : cut n numThreads 0 = 0 := by simp [cut]

theorem cut_numThreads (n : Nat) {numThreads : Nat} (h : 0 < numThreads) :
    cut n numThreads numThreads = n := by
  have hrem := Nat.mod_lt n h
  rw [cut, Nat.min_eq_right (by omega), Nat.mul_comm, Nat.div_add_mod]

theorem cut_succ (n numThreads t : Nat) : cut n numThreads (t + 1) =
    cut n numThreads t + (n / numThreads + if t < n % numThreads then 1 else 0) := by
  rw [cut, cut, Nat.mul_succ]
  split <;> omega

theorem cut_mono (n numThreads : Nat) {s t : Nat} (h : s ≤ t) : cut n numThreads s ≤ cut n numThreads t := by
  have hmul := Nat.mul_le_mul_left (n / numThreads) h
  simp only [cut]
  omega

private theorem rangesFrom_getD (n numThreads left t k : Nat) (hk : k < left) :
    (rangesFrom (n / numThreads) (n % numThreads) left t (cut n numThreads t)).getD k (0, 0) =
      (cut n numThreads (t + k), cut n numThreads (t + k + 1)) := by
  induction left generalizing t k with
  | zero => exact absurd hk (Nat.not_lt_zero k)
  | succ left ih =>
    rw [rangesFrom, ← cut_succ]
    cases k with
    | zero => rfl
    | succ k =>
      rw [List.getD_cons_succ, ih (t + 1) k (by omega)]
      congr 2 <;> omega

/-- The shards' ranges lie side by side from 0 to the number of inputs. -/
theorem shardRange_eq (inputs : List Bytes) {numThreads t : Nat} (h : t < numThreads) :
    shardRange inputs numThreads t =
      (cut inputs.length numThreads t, cut inputs.length numThreads (t + 1)) := by
  have hrange := rangesFrom_getD inputs.length numThreads numThreads 0 t h
  rw [cut_zero, Nat.zero_add] at hrange
  exact hrange

theorem exists_cut {n numThreads s i : Nat} (h : i < cut n numThreads s) :
    ∃ t < s, cut n numThreads t ≤ i ∧ i < cut n numThreads (t + 1) := by
  induction s with
  | zero =>
    rw [cut_zero] at h
    exact absurd h (Nat.not_lt_zero i)
  | succ s ih =>
    by_cases hs : i < cut n numThreads s
    · obtain ⟨t, ht, hcut⟩ := ih hs
      exact ⟨t, Nat.lt_succ_of_lt ht, hcut⟩
    · exact ⟨s, Nat.lt_succ_self s, not_lt.mp hs, h⟩

theorem cut_disjoint {n numThreads s t i : Nat} (hs : cut n numThreads s ≤ i)
    (hs' : i < cut n numThreads (s + 1)) (ht : cut n numThreads t ≤ i)
    (ht' : i < cut n numThreads (t + 1)) : s = t := by
  rcases Nat.lt_trichotomy s t with h | h | h
  · have := cut_mono n numThreads (show s + 1 ≤ t from h)
    omega
  · exact h
  · have := cut_mono n numThreads (show t + 1 ≤ s from h)
    omega

end Cuts

/-- What a transform may return: every output in its place, or the error of the first
input the operation fails on. -/
inductive Transformed (op : ElementOp) (inputs : List Bytes) : Except Error (List Bytes) → Prop where
  | ok {outputs : List Bytes} (hlength : outputs.length = inputs.length)
      (hall : ∀ (i : Nat) (hi : i < inputs.length), op inputs[i] = .ok outputs[i]) :
      Transformed op inputs (.ok outputs)
  | error {e : Error} (i : Nat) (hi : i < inputs.length) (hfails : op inputs[i] = .error e)
      (hfirst : ∀ (j : Nat) (hj : j < i), ∃ output, op inputs[j] = .ok output) :
      Transformed op inputs (.error e)

section Invariant
variable (op : ElementOp) (inputs : List Bytes) (numThreads : Nat)

/-- The outputs of the indices from `a` to `b` are in place. -/
def Computed (m : Machine) (a b : Nat) : Prop :=
  ∀ k, a ≤ k → k < b → ∃ input output, inputs[k]? = some input ∧ op input = .ok output ∧
    m.outputs[k]? = some output

/-- What a shard in a given state has done. -/
def Standing (m : Machine) (t : Nat) : ShardState → Prop
  | .notStarted => m.shardStatus t = .ok ∧ ∀ p ∈ m.processed, p.1 ≠ t
  | .running i _ => m.shardStatus t = .ok ∧ cut inputs.length numThreads t ≤ i ∧
      i ≤ cut inputs.length numThreads (t + 1) ∧
      Computed op inputs m (cut inputs.length numThreads t) i ∧
      ∀ p ∈ m.processed, p.1 = t → p.2 < i
  | .finished =>
      (m.shardStatus t = .ok ∧ Computed op inputs m (cut inputs.length numThreads t)
        (cut inputs.length numThreads (t + 1))) ∨
      ∃ i input e, m.shardStatus t = .error e ∧ cut inputs.length numThreads t ≤ i ∧
        i < cut inputs.length numThreads (t + 1) ∧
        Computed op inputs m (cut inputs.length numThreads t) i ∧
        inputs[i]? = some input ∧ op input = .error e

/-- What holds of the shards in every state a run reaches. -/
structure Shards (m : Machine) : Prop where
  outputs : m.outputs.length = inputs.length
  standing : ∀ t < numThreads, Standing op inputs numThreads m t (m.shards t)
  started : m.started.Nodup
  started_iff : ∀ t, t ∈ m.started ↔ m.shards t ≠ .notStarted
  inside : ∀ t ∈ m.started, t < numThreads
  processed : ∀ p ∈ m.processed, p.1 < numThreads ∧ cut inputs.length numThreads p.1 ≤ p.2 ∧
    p.2 < cut inputs.length numThreads (p.1 + 1)
  processedOnce : (m.processed.map Prod.snd).Nodup

variable {op inputs numThreads}

theorem Shards.initial : Shards op inputs numThreads (initial inputs) where
  outputs := List.length_replicate
  standing _ _ := ⟨rfl, nofun⟩
  started := .nil
  started_iff _ := ⟨nofun, fun h => absurd rfl h⟩
  inside := nofun
  processed := nofun
  processedOnce := .nil

/-- A shard stands as before where its status, its outputs and its log are as before. -/
theorem Standing.frame {m m' : Machine} {t : Nat} {state : ShardState}
    (h : Standing op inputs numThreads m t state) (hstatus : m'.shardStatus t = m.shardStatus t)
    (houtputs : ∀ k, cut inputs.length numThreads t ≤ k → k < cut inputs.length numThreads (t + 1) →
      m'.outputs[k]? = m.outputs[k]?)
    (hprocessed : ∀ p ∈ m'.processed, p.1 = t → p ∈ m.processed) :
    Standing op inputs numThreads m' t state := by
  have hcomputed {b : Nat} (hb : b ≤ cut inputs.length numThreads (t + 1))
      (hc : Computed op inputs m (cut inputs.length numThreads t) b) :
      Computed op inputs m' (cut inputs.length numThreads t) b := by
    intro k hk hkb
    rw [houtputs k hk (hkb.trans_le hb)]
    exact hc k hk hkb
  cases state with
  | notStarted =>
    obtain ⟨hok, hnone⟩ := h
    exact ⟨hstatus.trans hok, fun p hp hpt => hnone p (hprocessed p hp hpt) hpt⟩
  | running i counter =>
    obtain ⟨hok, hlo, hhi, hc, hlog⟩ := h
    exact ⟨hstatus.trans hok, hlo, hhi, hcomputed hhi hc, fun p hp hpt =>
      hlog p (hprocessed p hp hpt) hpt⟩
  | finished =>
    rcases h with ⟨hok, hc⟩ | ⟨i, input, e, he, hlo, hhi, hc, hinput, hop⟩
    · exact Or.inl ⟨hstatus.trans hok, hcomputed (Nat.le_refl _) hc⟩
    · exact Or.inr ⟨i, input, e, hstatus.trans he, hlo, hhi, hcomputed hhi.le hc, hinput, hop⟩

/-- Only the shards, their logs and the outputs matter to the shards. -/
theorem Shards.congr {m m' : Machine} (h : Shards op inputs numThreads m) (hshards : m'.shards = m.shards)
    (hstatus : m'.shardStatus = m.shardStatus) (houtputs : m'.outputs = m.outputs)
    (hstarted : m'.started = m.started) (hprocessed : m'.processed = m.processed) :
    Shards op inputs numThreads m' where
  outputs := by rw [houtputs, h.outputs]
  standing t ht := by
    rw [hshards]
    exact (h.standing t ht).frame (by rw [hstatus]) (fun _ _ _ => by rw [houtputs])
      (fun _ hp _ => by rwa [hprocessed] at hp)
  started := by rw [hstarted]; exact h.started
  started_iff t := by rw [hstarted, hshards]; exact h.started_iff t
  inside := by rw [hstarted]; exact h.inside
  processed := by rw [hprocessed]; exact h.processed
  processedOnce := by rw [hprocessed]; exact h.processedOnce

theorem Shards.startShard {m : Machine} (h : Shards op inputs numThreads m) {t : Nat}
    (ht : t < numThreads) (hnot : m.shards t = .notStarted) :
    Shards op inputs numThreads (startShard inputs numThreads m t) where
  outputs := h.outputs
  standing s hs := by
    by_cases hst : s = t
    · subst hst
      have hstanding := h.standing s hs
      rw [hnot] at hstanding
      simp only [ParallelEc.startShard, Function.update_self, shardRange_eq inputs hs]
      refine ⟨hstanding.1, Nat.le_refl _, cut_mono _ _ (Nat.le_succ s), fun k hk hk' => ?_,
        fun p hp hps => absurd hps (hstanding.2 p hp)⟩
      omega
    · simp only [ParallelEc.startShard, Function.update_of_ne hst]
      exact (h.standing s hs).frame rfl (fun _ _ _ => rfl) (fun _ hp _ => hp)
  started := by
    rw [ParallelEc.startShard]
    refine List.Nodup.append h.started (List.nodup_singleton t) ?_
    intro s hs hst
    rw [List.mem_singleton.mp hst] at hs
    exact (h.started_iff t).mp hs hnot
  started_iff s := by
    simp only [ParallelEc.startShard, List.mem_append, List.mem_singleton, h.started_iff s]
    by_cases hst : s = t
    · simp [hst]
    · simp [hst, Function.update_of_ne]
  inside s hs := by
    rcases List.mem_append.mp hs with hs | hs
    · exact h.inside s hs
    · rwa [List.mem_singleton.mp hs]
  processed := h.processed
  processedOnce := h.processedOnce

/-- What a turn of a shard's loop can do: compute an output, meet an error, or end. -/
theorem shardStep_cases {m m' : Machine} {t i : Nat} {counter : ProgressCounter} (ht : t < numThreads)
    (h : shardStep op inputs numThreads m t i counter = some m') :
    (∃ input output, i < cut inputs.length numThreads (t + 1) ∧ inputs[i]? = some input ∧
      op input = .ok output ∧ m' = { m with
        processed := m.processed ++ [(t, i)]
        shards := Function.update m.shards t (.running (i + 1) counter.increment)
        outputs := m.outputs.set i output
        published := m.published + (counter.increment.published - counter.published) }) ∨
    (∃ input e, i < cut inputs.length numThreads (t + 1) ∧ inputs[i]? = some input ∧
      op input = .error e ∧
      m' = finishShard { m with processed := m.processed ++ [(t, i)] } t counter (.error e)) ∨
    cut inputs.length numThreads (t + 1) ≤ i ∧ m' = finishShard m t counter (m.shardStatus t) := by
  rw [shardStep, shardRange_eq inputs ht] at h
  dsimp only at h
  split at h <;> rename_i hi
  · cases hinput : inputs[i]? with
    | none =>
      rw [hinput] at h
      cases h
    | some input =>
      rw [hinput] at h
      dsimp only [bind, Option.bind] at h
      cases hop : op input with
      | error e =>
        rw [hop] at h
        cases h
        exact Or.inr (Or.inl ⟨input, e, hi, rfl, hop, rfl⟩)
      | ok output =>
        rw [hop] at h
        cases h
        exact Or.inl ⟨input, output, hi, rfl, hop, rfl⟩
  · cases h
    exact Or.inr (Or.inr ⟨not_lt.mp hi, rfl⟩)

/-- Processing the index a running shard stands at keeps the log free of repeats. -/
private theorem Shards.log {m : Machine} (h : Shards op inputs numThreads m) {t i : Nat}
    {counter : ProgressCounter} (ht : t < numThreads) (hrunning : m.shards t = .running i counter)
    (hi : i < cut inputs.length numThreads (t + 1)) :
    (∀ p ∈ m.processed ++ [(t, i)], p.1 < numThreads ∧ cut inputs.length numThreads p.1 ≤ p.2 ∧
      p.2 < cut inputs.length numThreads (p.1 + 1)) ∧
    ((m.processed ++ [(t, i)]).map Prod.snd).Nodup := by
  have hstanding := h.standing t ht
  rw [hrunning] at hstanding
  obtain ⟨-, hlo, -, -, hlog⟩ := hstanding
  constructor
  · intro p hp
    rcases List.mem_append.mp hp with hp | hp
    · exact h.processed p hp
    · rw [List.mem_singleton.mp hp]
      exact ⟨ht, hlo, hi⟩
  · rw [List.map_append]
    refine List.Nodup.append h.processedOnce (List.nodup_singleton i) ?_
    intro j hj hji
    obtain ⟨p, hp, rfl⟩ := List.mem_map.mp hj
    have hpi : p.2 = i := List.mem_singleton.mp hji
    obtain ⟨-, hplo, hphi⟩ := h.processed p hp
    have hpt : p.1 = t := cut_disjoint hplo hphi (hpi ▸ hlo) (hpi ▸ hi)
    have := hlog p hp hpt
    omega

/-- A shard that goes on or ends stays one that was started. -/
private theorem Shards.started_iff_update {m : Machine} (h : Shards op inputs numThreads m) {t : Nat}
    (hstarted : m.shards t ≠ .notStarted) {state : ShardState} (hstate : state ≠ .notStarted) (s : Nat) :
    s ∈ m.started ↔ Function.update m.shards t state s ≠ .notStarted := by
  by_cases hst : s = t
  · subst hst
    rw [Function.update_self]
    exact iff_of_true ((h.started_iff s).mpr hstarted) hstate
  · rw [Function.update_of_ne hst]
    exact h.started_iff s

private theorem log_of_ne {log : List (Nat × Nat)} {s t i : Nat} (hst : s ≠ t) {p : Nat × Nat}
    (hp : p ∈ log ++ [(t, i)]) (hps : p.1 = s) : p ∈ log := by
  rcases List.mem_append.mp hp with hp | hp
  · exact hp
  · rw [List.mem_singleton.mp hp] at hps
    exact absurd hps.symm hst

/-- A running shard puts the output of the index it stands at into its place. -/
private theorem Shards.advance {m : Machine} (h : Shards op inputs numThreads m) {t i : Nat}
    {counter : ProgressCounter} (ht : t < numThreads) (hrunning : m.shards t = .running i counter)
    (hi : i < cut inputs.length numThreads (t + 1)) {input output : Bytes}
    (hinput : inputs[i]? = some input) (hop : op input = .ok output) (counter' : ProgressCounter)
    (published : Nat) :
    Shards op inputs numThreads { m with
      processed := m.processed ++ [(t, i)]
      shards := Function.update m.shards t (.running (i + 1) counter')
      outputs := m.outputs.set i output
      published := published } := by
  obtain ⟨hprocessed, honce⟩ := h.log ht hrunning hi
  have hstanding := h.standing t ht
  rw [hrunning] at hstanding
  obtain ⟨hok, hlo, hhi, hc, hlog⟩ := hstanding
  have hstarted : m.shards t ≠ .notStarted := hrunning ▸ nofun
  refine ⟨by simp [h.outputs], fun s hs => ?_, h.started, h.started_iff_update hstarted nofun, h.inside,
    hprocessed, honce⟩
  by_cases hst : s = t
  · subst hst
    simp only [Function.update_self]
    refine ⟨hok, by omega, by omega, fun k hk hki => ?_, fun p hp hps => ?_⟩
    · by_cases hkn : k = i
      · subst hkn
        have hlt : k < m.outputs.length := by
          rw [h.outputs]
          exact (List.getElem?_eq_some_iff.mp hinput).1
        exact ⟨input, output, hinput, hop, by simp [List.getElem?_set_self hlt]⟩
      · rw [List.getElem?_set_ne (Ne.symm hkn)]
        exact hc k hk (by omega)
    · rcases List.mem_append.mp hp with hp | hp
      · have := hlog p hp hps
        omega
      · rw [List.mem_singleton.mp hp]
        exact Nat.lt_succ_self i
  · simp only [Function.update_of_ne hst]
    refine (h.standing s hs).frame rfl (fun k hk hk' => ?_) (fun p hp hps => log_of_ne hst hp hps)
    apply List.getElem?_set_ne
    rintro rfl
    exact hst (cut_disjoint hk hk' hlo hi)

/-- A running shard ends at the error of the index it stands at. -/
private theorem Shards.fail {m : Machine} (h : Shards op inputs numThreads m) {t i : Nat}
    {counter : ProgressCounter} (ht : t < numThreads) (hrunning : m.shards t = .running i counter)
    (hi : i < cut inputs.length numThreads (t + 1)) {input : Bytes} {e : Error}
    (hinput : inputs[i]? = some input) (hop : op input = .error e) :
    Shards op inputs numThreads
      (finishShard { m with processed := m.processed ++ [(t, i)] } t counter (.error e)) := by
  obtain ⟨hprocessed, honce⟩ := h.log ht hrunning hi
  have hstanding := h.standing t ht
  rw [hrunning] at hstanding
  obtain ⟨-, hlo, -, hc, -⟩ := hstanding
  have hstarted : m.shards t ≠ .notStarted := hrunning ▸ nofun
  refine ⟨h.outputs, fun s hs => ?_, h.started, h.started_iff_update hstarted nofun, h.inside,
    hprocessed, honce⟩
  by_cases hst : s = t
  · subst hst
    simp only [finishShard, Function.update_self]
    exact Or.inr ⟨i, input, e, by simp, hlo, hi, hc, hinput, hop⟩
  · simp only [finishShard, Function.update_of_ne hst]
    exact (h.standing s hs).frame (by simp [hst]) (fun _ _ _ => rfl) (fun p hp hps => log_of_ne hst hp hps)

/-- A running shard ends where its range does. -/
private theorem Shards.complete {m : Machine} (h : Shards op inputs numThreads m) {t i : Nat}
    {counter : ProgressCounter} (ht : t < numThreads) (hrunning : m.shards t = .running i counter)
    (hi : cut inputs.length numThreads (t + 1) ≤ i) :
    Shards op inputs numThreads (finishShard m t counter (m.shardStatus t)) := by
  have hstanding := h.standing t ht
  rw [hrunning] at hstanding
  obtain ⟨hok, -, hhi, hc, -⟩ := hstanding
  have hstarted : m.shards t ≠ .notStarted := hrunning ▸ nofun
  refine ⟨h.outputs, fun s hs => ?_, h.started, h.started_iff_update hstarted nofun, h.inside,
    h.processed, h.processedOnce⟩
  by_cases hst : s = t
  · subst hst
    have hend : i = cut inputs.length numThreads (s + 1) := Nat.le_antisymm hhi hi
    simp only [finishShard, Function.update_self]
    exact Or.inl ⟨by simpa using hok, by rw [← hend]; exact hc⟩
  · simp only [finishShard, Function.update_of_ne hst]
    exact (h.standing s hs).frame (by simp [hst]) (fun _ _ _ => rfl) (fun _ hp _ => hp)

theorem Shards.shardStep {m m' : Machine} (h : Shards op inputs numThreads m) {t i : Nat}
    {counter : ProgressCounter} (ht : t < numThreads) (hrunning : m.shards t = .running i counter)
    (hstep : shardStep op inputs numThreads m t i counter = some m') :
    Shards op inputs numThreads m' := by
  rcases shardStep_cases ht hstep with ⟨input, output, hi, hinput, hop, rfl⟩ |
    ⟨input, e, hi, hinput, hop, rfl⟩ | ⟨hi, rfl⟩
  · exact h.advance ht hrunning hi hinput hop _ _
  · exact h.fail ht hrunning hi hinput hop
  · exact h.complete ht hrunning hi

end Invariant

section Caller
variable (numThreads : Nat)

/-- What the calling thread has seen to: which shards have a thread, and which are its own. -/
def SeenTo (m : Machine) : Caller → Prop
  | .spawning k => m.nextShard = k ∧ ∀ t, m.shards t = .notStarted ↔ ¬ (1 ≤ t ∧ t < k)
  | .running shards =>
      (∀ t, 1 ≤ t → t < m.nextShard → m.shards t ≠ .notStarted) ∧
      (∀ t < numThreads, (1 ≤ t ∧ t < m.nextShard) ∨ t ∈ shards ∨ m.shards t = .finished) ∧
      (∀ t ∈ shards, t < numThreads) ∧ shards.Nodup ∧ ∀ t ∈ shards.tail, m.shards t = .notStarted
  | .returned status => (∀ t < numThreads, m.shards t = .finished) ∧ status = firstError numThreads m

structure Reached (op : ElementOp) (inputs : List Bytes) (m : Machine) : Prop where
  shards : Shards op inputs numThreads m
  nextShard : 1 ≤ m.nextShard ∧ m.nextShard ≤ numThreads
  seenTo : SeenTo numThreads m m.caller

variable {numThreads} {op : ElementOp} {inputs : List Bytes}

theorem Reached.initial (h : 0 < numThreads) : Reached numThreads op inputs (initial inputs) where
  shards := .initial
  nextShard := ⟨Nat.le_refl 1, h⟩
  seenTo := ⟨rfl, fun t => iff_of_true rfl (by omega)⟩

/-- A turn of one shard's loop touches no other shard and not the caller. -/
theorem shardStep_frame {m m' : Machine} {t i : Nat} {counter : ProgressCounter} (ht : t < numThreads)
    (h : shardStep op inputs numThreads m t i counter = some m') :
    m'.caller = m.caller ∧ m'.nextShard = m.nextShard ∧ m'.shards t ≠ .notStarted ∧
      ∀ s, s ≠ t → m'.shards s = m.shards s := by
  rcases shardStep_cases ht h with ⟨input, output, -, -, -, rfl⟩ | ⟨input, e, -, -, -, rfl⟩ | ⟨-, rfl⟩
  all_goals
    refine ⟨rfl, rfl, by simp [finishShard], fun s hs => ?_⟩
    simp only [finishShard, Function.update_of_ne hs]

/-- A turn of a running shard keeps what the caller has seen to. -/
private theorem SeenTo.shardStep {m m' : Machine} {caller : Caller} {t i : Nat}
    {counter : ProgressCounter} (h : SeenTo numThreads m caller) (ht : t < numThreads)
    (hrunning : m.shards t = .running i counter)
    (hstep : shardStep op inputs numThreads m t i counter = some m') :
    SeenTo numThreads m' caller := by
  obtain ⟨-, hnext, hnot, hother⟩ := shardStep_frame ht hstep
  have hstarted : ∀ s, m'.shards s = .notStarted ↔ m.shards s = .notStarted := by
    intro s
    by_cases hst : s = t
    · subst hst
      exact iff_of_false hnot (by rw [hrunning]; exact nofun)
    · rw [hother s hst]
  cases caller with
  | spawning k =>
    obtain ⟨hk, hiff⟩ := h
    exact ⟨hnext.trans hk, fun s => (hstarted s).trans (hiff s)⟩
  | running shards =>
    obtain ⟨hthreads, hcover, hbound, hnodup, htail⟩ := h
    refine ⟨fun s hs hs' => ?_, fun s hs => ?_, hbound, hnodup, fun s hs => (hstarted s).mpr (htail s hs)⟩
    · rw [hnext] at hs'
      exact fun hidle => hthreads s hs hs' ((hstarted s).mp hidle)
    · rw [hnext]
      rcases hcover s hs with hs | hs | hs
      · exact Or.inl hs
      · exact Or.inr (Or.inl hs)
      · refine Or.inr (Or.inr ?_)
        have hst : s ≠ t := by
          rintro rfl
          rw [hrunning] at hs
          cases hs
        rw [hother s hst, hs]
  | returned status =>
    have hfinished := h.1 t ht
    rw [hrunning] at hfinished
    cases hfinished

private theorem Reached.shardStep {m m' : Machine} (h : Reached numThreads op inputs m) {t i : Nat}
    {counter : ProgressCounter} (ht : t < numThreads) (hrunning : m.shards t = .running i counter)
    (hstep : shardStep op inputs numThreads m t i counter = some m') :
    Reached numThreads op inputs m' := by
  obtain ⟨hcaller, hnext, -, -⟩ := shardStep_frame ht hstep
  refine ⟨h.shards.shardStep ht hrunning hstep, by rw [hnext]; exact h.nextShard, ?_⟩
  rw [hcaller]
  exact h.seenTo.shardStep ht hrunning hstep

private theorem Reached.spawn {m : Machine} (h : Reached numThreads op inputs m) {k : Nat}
    (hcaller : m.caller = .spawning k) (hk : k < numThreads) :
    Reached numThreads op inputs
      { startShard inputs numThreads m k with caller := .spawning (k + 1), nextShard := k + 1 } := by
  have hseen := h.seenTo
  rw [hcaller] at hseen
  obtain ⟨hnext, hiff⟩ := hseen
  have hone := h.nextShard.1
  rw [hnext] at hone
  have hidle : m.shards k = .notStarted := (hiff k).mpr (by omega)
  refine ⟨(h.shards.startShard hk hidle).congr rfl rfl rfl rfl rfl, ⟨by simp, by simp; omega⟩, rfl,
    fun t => ?_⟩
  by_cases htk : t = k
  · subst htk
    simp [startShard, hone]
  · simp only [startShard, Function.update_of_ne htk, hiff t]
    omega

/-- The caller leaves the loop, with the shards that have no thread for its own. -/
private theorem Reached.own {m : Machine} (h : Reached numThreads op inputs m) {k : Nat}
    (hcaller : m.caller = .spawning k) {own : List Nat} (hown : own = 0 :: List.range' k (numThreads - k)) :
    Reached numThreads op inputs { m with caller := .running own } := by
  have hseen := h.seenTo
  rw [hcaller] at hseen
  obtain ⟨hnext, hiff⟩ := hseen
  have hbound := h.nextShard
  rw [hnext] at hbound
  refine ⟨h.shards.congr rfl rfl rfl rfl rfl, h.nextShard, ?_, ?_, ?_, ?_, ?_⟩
  · intro t ht ht'
    dsimp only at ht'
    rw [hnext] at ht'
    exact fun hidle => (hiff t).mp hidle ⟨ht, ht'⟩
  · intro t ht
    dsimp only
    rw [hnext, hown]
    simp only [List.mem_cons, List.mem_range'_1]
    omega
  · intro t ht
    rw [hown] at ht
    simp only [List.mem_cons, List.mem_range'_1] at ht
    omega
  · rw [hown, List.nodup_cons]
    refine ⟨?_, List.nodup_range'⟩
    simp only [List.mem_range'_1]
    omega
  · intro t ht
    rw [hown, List.tail_cons, List.mem_range'_1] at ht
    exact (hiff t).mpr (by omega)

/-- What a step can do: spawn a shard, own the rest, start or drop an own shard, turn a
shard's loop, or return. -/
inductive StepKind (op : ElementOp) (inputs : List Bytes) (numThreads : Nat) (m : Machine) :
    Machine → Prop where
  | spawn {k : Nat} (hcaller : m.caller = .spawning k) (hk : k < numThreads) :
      StepKind op inputs numThreads m
        { startShard inputs numThreads m k with caller := .spawning (k + 1), nextShard := k + 1 }
  | own {k : Nat} {own : List Nat} (hcaller : m.caller = .spawning k)
      (hown : own = 0 :: List.range' k (numThreads - k)) :
      StepKind op inputs numThreads m { m with caller := .running own }
  | start {t : Nat} {rest : List Nat} (hcaller : m.caller = .running (t :: rest))
      (hidle : m.shards t = .notStarted) :
      StepKind op inputs numThreads m (startShard inputs numThreads m t)
  | drop {t : Nat} {rest : List Nat} (hcaller : m.caller = .running (t :: rest))
      (hfinished : m.shards t = .finished) :
      StepKind op inputs numThreads m { m with caller := .running rest }
  | turn {t i : Nat} {counter : ProgressCounter} {m' : Machine} (ht : t < numThreads)
      (hrunning : m.shards t = .running i counter)
      (hstep : shardStep op inputs numThreads m t i counter = some m') :
      StepKind op inputs numThreads m m'
  | join (hcaller : m.caller = .running [])
      (hfinished : ∀ t, 1 ≤ t → t < m.nextShard → m.shards t = .finished) :
      StepKind op inputs numThreads m { m with caller := .returned (firstError numThreads m) }

theorem step_cases {m m' : Machine} (h : Reached numThreads op inputs m) {choice : Choice}
    (hstep : step op inputs numThreads m choice = some m') : StepKind op inputs numThreads m m' := by
  have hnext := h.nextShard
  have hseen := h.seenTo
  cases choice with
  | spawnFails =>
    simp only [step] at hstep
    split at hstep
    · rename_i k hcaller
      split at hstep <;> cases hstep
      exact .own hcaller rfl
    · cases hstep
  | caller =>
    simp only [step] at hstep
    split at hstep
    · rename_i k hcaller
      split at hstep <;> cases hstep
      · rename_i hk
        exact .spawn hcaller hk
      · rename_i hk
        exact .own hcaller (by rw [show numThreads - k = 0 by omega, List.range'_zero])
    · rename_i t rest hcaller
      rw [hcaller] at hseen
      have ht : t < numThreads := hseen.2.2.1 t (List.mem_cons_self ..)
      split at hstep
      · rename_i hidle
        cases hstep
        exact .start hcaller hidle
      · rename_i i counter hrunning
        exact .turn ht hrunning hstep
      · rename_i hfinished
        cases hstep
        exact .drop hcaller hfinished
    · rename_i hcaller
      split at hstep <;> cases hstep
      rename_i hall
      refine .join hcaller fun t ht ht' => ?_
      rw [List.all_eq_true] at hall
      exact of_decide_eq_true (hall t (List.mem_range'_1.mpr ⟨ht, by omega⟩))
    · cases hstep
  | worker t =>
    simp only [step] at hstep
    split at hstep
    · rename_i ht
      split at hstep
      · rename_i i counter hrunning
        exact .turn (by omega) hrunning hstep
      · cases hstep
    · cases hstep

theorem Reached.step {m m' : Machine} (h : Reached numThreads op inputs m) {choice : Choice}
    (hstep : step op inputs numThreads m choice = some m') : Reached numThreads op inputs m' := by
  have hseen := h.seenTo
  cases step_cases h hstep with
  | spawn hcaller hk => exact h.spawn hcaller hk
  | own hcaller hown => exact h.own hcaller hown
  | @start t rest hcaller hidle =>
    rw [hcaller] at hseen
    obtain ⟨hthreads, hcover, hbound, hnodup, htail⟩ := hseen
    have ht := hbound t (List.mem_cons_self ..)
    refine ⟨h.shards.startShard ht hidle, h.nextShard, ?_⟩
    simp only [startShard, hcaller]
    refine ⟨fun s hs hs' => ?_, fun s hs => ?_, hbound, hnodup, fun s hs => ?_⟩
    · by_cases hst : s = t
      · simp [hst]
      · simpa only [Function.update_of_ne hst] using hthreads s hs hs'
    · by_cases hst : s = t
      · exact Or.inr (Or.inl (by simp [hst]))
      · simpa only [Function.update_of_ne hst] using hcover s hs
    · have hst : s ≠ t := by
        rintro rfl
        exact (List.nodup_cons.mp hnodup).1 hs
      simpa only [Function.update_of_ne hst] using htail s hs
  | @drop t rest hcaller hfinished =>
    rw [hcaller] at hseen
    obtain ⟨hthreads, hcover, hbound, hnodup, htail⟩ := hseen
    refine ⟨h.shards.congr rfl rfl rfl rfl rfl, h.nextShard, hthreads, fun s hs => ?_,
      fun s hs => hbound s (List.mem_cons_of_mem t hs), (List.nodup_cons.mp hnodup).2,
      fun s hs => htail s (List.mem_of_mem_tail hs)⟩
    rcases hcover s hs with hs | hs | hs
    · exact Or.inl hs
    · rcases List.mem_cons.mp hs with rfl | hs
      · exact Or.inr (Or.inr hfinished)
      · exact Or.inr (Or.inl hs)
    · exact Or.inr (Or.inr hs)
  | turn ht hrunning hstep => exact h.shardStep ht hrunning hstep
  | join hcaller hfinished =>
    rw [hcaller] at hseen
    obtain ⟨-, hcover, -, -, -⟩ := hseen
    refine ⟨h.shards.congr rfl rfl rfl rfl rfl, h.nextShard, fun t ht => ?_, rfl⟩
    rcases hcover t ht with ⟨hlo, hhi⟩ | hmem | hdone
    · exact hfinished t hlo hhi
    · cases hmem
    · exact hdone

theorem Reached.run {m m' : Machine} {choices : List Choice} (h : Reached numThreads op inputs m)
    (hrun : run op inputs numThreads m choices = some m') : Reached numThreads op inputs m' := by
  induction choices generalizing m with
  | nil =>
    cases hrun
    exact h
  | cons choice choices ih =>
    rw [ParallelEc.run] at hrun
    cases hstep : ParallelEc.step op inputs numThreads m choice with
    | none =>
      rw [hstep] at hrun
      cases hrun
    | some m₁ =>
      rw [hstep] at hrun
      exact ih (h.step hstep) hrun

end Caller

section Returned
variable {numThreads : Nat} {op : ElementOp} {inputs : List Bytes}

/-- The status returned: OK if every shard's is, otherwise that of the first shard
whose status is not OK. -/
theorem firstError_spec (numThreads : Nat) (m : Machine) :
    match firstError numThreads m with
    | .ok => ∀ t < numThreads, m.shardStatus t = .ok
    | .error e => ∃ t < numThreads, m.shardStatus t = .error e ∧ ∀ s < t, m.shardStatus s = .ok := by
  rw [firstError]
  cases hfind : ((List.range numThreads).map m.shardStatus).find? (· ≠ .ok) with
  | none =>
    intro t ht
    have hnone := List.find?_eq_none.mp hfind (m.shardStatus t)
      (List.mem_map_of_mem (List.mem_range.mpr ht))
    simpa using hnone
  | some status =>
    obtain ⟨hstatus, t, ht, hget, hbefore⟩ := List.find?_eq_some_iff_getElem.mp hfind
    have hlt : t < numThreads := by simpa using ht
    rw [List.getElem_map, List.getElem_range] at hget
    cases status with
    | ok => simp at hstatus
    | error e =>
      refine ⟨t, hlt, hget, fun s hs => ?_⟩
      have hok := hbefore s hs
      rw [List.getElem_map, List.getElem_range] at hok
      simpa using hok

/-- A machine that has returned has transformed the inputs. -/
theorem Reached.transformed {m : Machine} (h : Reached numThreads op inputs m) {status : Status}
    (hreturned : m.caller = .returned status) :
    Transformed op inputs (m.pass inputs status).result := by
  have hseen := h.seenTo
  rw [hreturned] at hseen
  obtain ⟨hfinished, rfl⟩ := hseen
  have hpos : 0 < numThreads := h.nextShard.1.trans h.nextShard.2
  have hspec := firstError_spec numThreads m
  dsimp only [Machine.pass]
  cases hfirst : firstError numThreads m with
  | ok =>
    rw [hfirst] at hspec
    refine .ok h.shards.outputs fun i hi => ?_
    obtain ⟨t, ht, hlo, hhi⟩ := exists_cut (s := numThreads) (by rwa [cut_numThreads _ hpos])
    have hstanding := h.shards.standing t ht
    rw [hfinished t ht] at hstanding
    rcases hstanding with ⟨-, hcomputed⟩ | ⟨_, _, e, he, -⟩
    · obtain ⟨input, output, hinput, hop, houtput⟩ := hcomputed i hlo hhi
      obtain ⟨_, rfl⟩ := List.getElem?_eq_some_iff.mp hinput
      obtain ⟨_, rfl⟩ := List.getElem?_eq_some_iff.mp houtput
      exact hop
    · rw [hspec t ht] at he
      cases he
  | error e =>
    rw [hfirst] at hspec
    obtain ⟨t, ht, hstatus, hbefore⟩ := hspec
    have hstanding := h.shards.standing t ht
    rw [hfinished t ht] at hstanding
    rcases hstanding with ⟨hok, -⟩ | ⟨i, input, e', he, hlo, hhi, hcomputed, hinput, hop⟩
    · rw [hok] at hstatus
      cases hstatus
    · rw [he] at hstatus
      cases hstatus
      obtain ⟨hi, rfl⟩ := List.getElem?_eq_some_iff.mp hinput
      refine .error i hi hop fun j hj => ?_
      have hwhole : ∃ input output, inputs[j]? = some input ∧ op input = .ok output ∧
          m.outputs[j]? = some output := by
        by_cases hjt : cut inputs.length numThreads t ≤ j
        · exact hcomputed j hjt hj
        · obtain ⟨s, hs, hslo, hshi⟩ := exists_cut (not_le.mp hjt)
          have hearlier := h.shards.standing s (hs.trans ht)
          rw [hfinished s (hs.trans ht)] at hearlier
          rcases hearlier with ⟨-, hall⟩ | ⟨_, _, e', he', -⟩
          · exact hall j hslo hshi
          · rw [hbefore s hs] at he'
            cases he'
      obtain ⟨input, output, hinput, hop, -⟩ := hwhole
      obtain ⟨_, rfl⟩ := List.getElem?_eq_some_iff.mp hinput
      exact ⟨output, hop⟩

/-- A machine that has returned has run every shard, once. -/
theorem Reached.started_perm {m : Machine} (h : Reached numThreads op inputs m) {status : Status}
    (hreturned : m.caller = .returned status) : m.started.Perm (List.range numThreads) := by
  have hseen := h.seenTo
  rw [hreturned] at hseen
  refine (List.perm_ext_iff_of_nodup h.shards.started List.nodup_range).mpr fun t => ?_
  rw [List.mem_range]
  refine ⟨h.shards.inside t, fun ht => (h.shards.started_iff t).mpr ?_⟩
  rw [hseen.1 t ht]
  exact nofun

end Returned

section Returns
variable (numThreads : Nat) {op : ElementOp} {inputs : List Bytes}

/-- The turns a shard's loop has left, and its start and its end. -/
def shardWork (n t : Nat) : ShardState → Nat
  | .notStarted => cut n numThreads (t + 1) - cut n numThreads t + 2
  | .running i _ => cut n numThreads (t + 1) - i + 1
  | .finished => 0

def callerWork : Caller → Nat
  | .spawning k => 2 * numThreads + 3 - k
  | .running shards => shards.length + 1
  | .returned _ => 0

def remaining (n : Nat) (m : Machine) : Nat :=
  callerWork numThreads m.caller +
    ((List.range numThreads).map (fun t => shardWork numThreads n t (m.shards t))).sum

variable {numThreads}

private theorem sum_shardWork_lt {n t : Nat} {before after : Nat → ShardState} (ht : t < numThreads)
    (hless : shardWork numThreads n t (after t) < shardWork numThreads n t (before t))
    (hother : ∀ s, s ≠ t → after s = before s) :
    ((List.range numThreads).map (fun t => shardWork numThreads n t (after t))).sum <
      ((List.range numThreads).map (fun t => shardWork numThreads n t (before t))).sum := by
  refine List.sum_lt_sum _ _ (fun s _ => ?_) ⟨t, List.mem_range.mpr ht, hless⟩
  by_cases hst : s = t
  · rw [hst]
    exact hless.le
  · rw [hother s hst]

/-- Every step of every thread leaves fewer. -/
theorem remaining_step {m m' : Machine} (h : Reached numThreads op inputs m) {choice : Choice}
    (hstep : step op inputs numThreads m choice = some m') :
    remaining numThreads inputs.length m' < remaining numThreads inputs.length m := by
  have hseen := h.seenTo
  have hnext := h.nextShard
  have hstart {t : Nat} (ht : t < numThreads) (hidle : m.shards t = .notStarted) :
      ((List.range numThreads).map (fun s => shardWork numThreads inputs.length s
        ((startShard inputs numThreads m t).shards s))).sum <
      ((List.range numThreads).map (fun s => shardWork numThreads inputs.length s (m.shards s))).sum := by
    refine sum_shardWork_lt ht ?_ (fun s hs => by simp only [startShard, Function.update_of_ne hs])
    simp only [startShard, Function.update_self, hidle, shardWork, shardRange_eq inputs ht]
    omega
  cases step_cases h hstep with
  | @spawn k hcaller hk =>
    rw [hcaller] at hseen
    have := hstart hk ((hseen.2 k).mpr (by omega))
    simp only [remaining, hcaller, callerWork]
    omega
  | @own k _ hcaller hown =>
    rw [hcaller] at hseen
    have := hseen.1
    simp only [remaining, hcaller, callerWork, hown, List.length_cons, List.length_range']
    omega
  | @start t rest hcaller hidle =>
    rw [hcaller] at hseen
    have := hstart (hseen.2.2.1 t (List.mem_cons_self ..)) hidle
    simp only [remaining]
    exact Nat.add_lt_add_left this _
  | drop hcaller hfinished =>
    simp only [remaining, hcaller, callerWork, List.length_cons]
    omega
  | @turn t i counter _ ht hrunning hturn =>
    obtain ⟨hsame, -, -, hother⟩ := shardStep_frame ht hturn
    have hstanding := h.shards.standing t ht
    rw [hrunning] at hstanding
    have hless : shardWork numThreads inputs.length t (m'.shards t) <
        shardWork numThreads inputs.length t (m.shards t) := by
      rw [hrunning]
      rcases shardStep_cases ht hturn with ⟨_, _, hi, -, -, rfl⟩ | ⟨_, _, -, -, -, rfl⟩ | ⟨-, rfl⟩
      all_goals simp only [finishShard, Function.update_self, shardWork]
      all_goals omega
    simp only [remaining, hsame]
    exact Nat.add_lt_add_left (sum_shardWork_lt ht hless hother) _
  | join hcaller hfinished =>
    simp only [remaining, hcaller, callerWork, List.length_nil]
    omega

theorem exists_shardStep {m : Machine} (h : Reached numThreads op inputs m) {t i : Nat}
    {counter : ProgressCounter} (ht : t < numThreads) :
    ∃ m', shardStep op inputs numThreads m t i counter = some m' := by
  have hpos : 0 < numThreads := h.nextShard.1.trans h.nextShard.2
  rw [shardStep, shardRange_eq inputs ht]
  dsimp only
  split <;> rename_i hi
  · have hlt : i < inputs.length := by
      have hmono := cut_mono inputs.length numThreads (show t + 1 ≤ numThreads from ht)
      rw [cut_numThreads _ hpos] at hmono
      exact hi.trans_le hmono
    rw [List.getElem?_eq_getElem hlt]
    dsimp only [bind, Option.bind]
    cases op inputs[i] with
    | error e => exact ⟨_, rfl⟩
    | ok output => exact ⟨_, rfl⟩
  · exact ⟨_, rfl⟩

/-- No state is a deadlock: until the call has returned, some thread can take a step. -/
theorem exists_step {m : Machine} (h : Reached numThreads op inputs m) :
    (∃ status, m.caller = .returned status) ∨
      ∃ choice m', step op inputs numThreads m choice = some m' := by
  have hseen := h.seenTo
  cases hcaller : m.caller with
  | returned status => exact Or.inl ⟨status, rfl⟩
  | spawning k =>
    refine Or.inr ⟨.caller, ?_⟩
    simp only [step, hcaller]
    split
    · exact ⟨_, rfl⟩
    · exact ⟨_, rfl⟩
  | running shards =>
    rw [hcaller] at hseen
    obtain ⟨hthreads, -, hbound, -, -⟩ := hseen
    cases shards with
    | cons t rest =>
      refine Or.inr ⟨.caller, ?_⟩
      simp only [step, hcaller]
      cases m.shards t with
      | notStarted => exact ⟨_, rfl⟩
      | running i counter => exact exists_shardStep h (hbound t (List.mem_cons_self ..))
      | finished => exact ⟨_, rfl⟩
    | nil =>
      by_cases hall : ∀ t, 1 ≤ t → t < m.nextShard → m.shards t = .finished
      · refine Or.inr ⟨.caller, ?_⟩
        simp only [step, hcaller]
        rw [if_pos]
        · exact ⟨_, rfl⟩
        · rw [List.all_eq_true]
          intro t ht
          rw [List.mem_range'_1] at ht
          exact decide_eq_true (hall t ht.1 (by omega))
      · push Not at hall
        obtain ⟨t, hlo, hhi, hnot⟩ := hall
        refine Or.inr ⟨.worker t, ?_⟩
        simp only [step]
        rw [if_pos ⟨hlo, hhi⟩]
        cases hstate : m.shards t with
        | notStarted => exact absurd hstate (hthreads t hlo hhi)
        | running i counter => exact exists_shardStep h (hhi.trans_le h.nextShard.2)
        | finished => exact absurd hstate hnot

/-- Every interleaving goes on to a return. -/
theorem exists_return {m : Machine} (h : Reached numThreads op inputs m) :
    ∃ choices m' status, run op inputs numThreads m choices = some m' ∧ m'.caller = .returned status := by
  induction hn : remaining numThreads inputs.length m using Nat.strong_induction_on generalizing m with
  | _ n ih =>
    rcases exists_step h with ⟨status, hreturned⟩ | ⟨choice, m₁, hstep⟩
    · exact ⟨[], m, status, rfl, hreturned⟩
    · obtain ⟨choices, m', status, hrun, hreturned⟩ :=
        ih _ (hn ▸ remaining_step h hstep) (h.step hstep) rfl
      refine ⟨choice :: choices, m', status, ?_, hreturned⟩
      rw [run, hstep]
      exact hrun

end Returns

section Results
variable {op : ElementOp} {inputs : List Bytes}

theorem Transformed.unique {r r' : Except Error (List Bytes)} (h : Transformed op inputs r)
    (h' : Transformed op inputs r') : r = r' := by
  cases h with
  | ok hlength hall =>
    cases h' with
    | ok hlength' hall' =>
      refine congrArg Except.ok (List.ext_getElem (hlength.trans hlength'.symm) fun i hi hi' => ?_)
      have heq := (hall i (hlength ▸ hi)).symm.trans (hall' i (hlength ▸ hi))
      exact Except.ok.inj heq
    | error i hi hfails _ => exact absurd (hfails.symm.trans (hall i hi)) nofun
  | error i hi hfails hfirst =>
    cases h' with
    | ok hlength' hall' => exact absurd (hfails.symm.trans (hall' i hi)) nofun
    | error i' hi' hfails' hfirst' =>
      rcases Nat.lt_trichotomy i i' with hlt | rfl | hlt
      · obtain ⟨output, hok⟩ := hfirst' i hlt
        exact absurd (hfails.symm.trans hok) nofun
      · exact congrArg Except.error (Except.error.inj (hfails.symm.trans hfails'))
      · obtain ⟨output, hok⟩ := hfirst i' hlt
        exact absurd (hfails'.symm.trans hok) nofun

theorem elementLoop_result (inputs outputs calls : List Bytes) (counter : ProgressCounter) :
    (elementLoop op inputs outputs calls counter).result =
      match inputs.mapM op with
      | .ok results => .ok (outputs ++ results)
      | .error e => .error e := by
  induction inputs generalizing outputs calls counter with
  | nil => simp [elementLoop, pure, Except.pure]
  | cons input inputs ih =>
    rw [elementLoop, List.mapM_cons]
    cases op input with
    | error e => rfl
    | ok output =>
      dsimp only
      rw [ih]
      cases inputs.mapM op with
      | error e => rfl
      | ok results => simp [bind, Except.bind, pure, Except.pure]

/-- The sequential loop is the operation on every element, up to the first error. -/
theorem elementLoop_mapM (op : ElementOp) (inputs : List Bytes) :
    (elementLoop op inputs [] [] {}).result = inputs.mapM op := by
  rw [elementLoop_result]
  cases inputs.mapM op <;> rfl

theorem mapM_transformed (op : ElementOp) (inputs : List Bytes) : Transformed op inputs (inputs.mapM op) := by
  induction inputs with
  | nil => exact .ok rfl (fun i hi => absurd hi (Nat.not_lt_zero i))
  | cons input inputs ih =>
    rw [List.mapM_cons]
    cases hop : op input with
    | error e => exact .error 0 (by simp) hop (fun j hj => absurd hj (Nat.not_lt_zero j))
    | ok output =>
      generalize inputs.mapM op = r at ih
      cases ih with
      | ok hlength hall =>
        refine .ok (by simpa using hlength) fun i hi => ?_
        cases i with
        | zero => exact hop
        | succ i => exact hall i (by simpa using hi)
      | error i hi hfails hfirst =>
        refine .error (i + 1) (by simpa using hi) hfails fun j hj => ?_
        cases j with
        | zero => exact ⟨output, hop⟩
        | succ j => exact hfirst j (by omega)

theorem chooseThreadCount_pos (hardware n : Nat) : 0 < chooseThreadCount hardware n := by
  rw [chooseThreadCount]
  split
  · exact Nat.one_pos
  · exact Nat.lt_of_lt_of_le Nat.one_pos (Nat.le_max_left _ _)

theorem TransformElements.result {hardware : Nat} {p : Pass} (h : TransformElements hardware op inputs p) :
    p.result = inputs.mapM op := by
  rw [TransformElements] at h
  split at h <;> rename_i hempty
  · rw [h, hempty]
    rfl
  · dsimp only at h
    split at h <;> rename_i hcount
    · rw [h]
      exact elementLoop_mapM op inputs
    · obtain ⟨choices, m, status, hrun, hreturned, rfl⟩ := h
      have hreached := (Reached.initial (chooseThreadCount_pos hardware _)).run hrun
      exact (hreached.transformed hreturned).unique (mapM_transformed op inputs)

/-- A host whose threads all return exists, whatever its hardware. -/
theorem exists_pass (hardware : Nat) (op : ElementOp) (inputs : List Bytes) :
    ∃ p, TransformElements hardware op inputs p := by
  simp only [TransformElements]
  split
  · exact ⟨_, rfl⟩
  · split
    · exact ⟨_, rfl⟩
    · have hinitial : Reached (chooseThreadCount hardware inputs.length) op inputs (initial inputs) :=
        .initial (chooseThreadCount_pos hardware inputs.length)
      obtain ⟨choices, m, status, hrun, hreturned⟩ := exists_return hinitial
      exact ⟨_, choices, m, status, hrun, hreturned, rfl⟩

/-- Under every schedule the sharded transform returns what the sequential loop returns,
and its shards are run once each and share no index. -/
theorem sharded_transform_is_sequential (hardware : Nat) (op : ElementOp) (inputs : List Bytes) :
    (∀ p, TransformElements hardware op inputs p →
      Transformed op inputs p.result ∧ p.result = (elementLoop op inputs [] [] {}).result) ∧
    ∀ choices m,
      run op inputs (chooseThreadCount hardware inputs.length) (initial inputs) choices = some m →
      m.started.Nodup ∧ (m.processed.map Prod.snd).Nodup ∧ ∀ status, m.caller = .returned status →
        m.started.Perm (List.range (chooseThreadCount hardware inputs.length)) := by
  constructor
  · intro p hp
    rw [hp.result, elementLoop_mapM]
    exact ⟨mapM_transformed op inputs, rfl⟩
  · intro choices m hrun
    have hreached := (Reached.initial (chooseThreadCount_pos hardware _)).run hrun
    exact ⟨hreached.shards.started, hreached.shards.processedOnce,
      fun status hreturned => hreached.started_perm hreturned⟩

end Results

end ParallelEc

/-- Both builds apply the operation to every element, up to the first error. -/
theorem Build.transformElements_result (build : Build) (moment : Nat) (op : ElementOp) (inputs : List Bytes) :
    (build.transformElements moment op inputs).result = inputs.mapM op := by
  cases build with
  | sequential => exact ParallelEc.elementLoop_mapM op inputs
  | threaded threads => exact (threads.returns moment op inputs).result

end PrivateSetIntersection
