import PrivateSetIntersection.Library.Interleaving
import PrivateSetIntersection.Library.Traversal
import PrivateSetIntersection.Protocol.Schedules

/-! What a pass that goes through has done: every element once, each shard its own in order,
and all of them added to the progress slot by the end. -/
namespace PrivateSetIntersection
open Library Interleaving

theorem ProgressCounter.increment_spec (counter : ProgressCounter) :
    counter.increment.published + counter.increment.pending =
        counter.published + counter.pending + 1 ∧
      counter.published ≤ counter.increment.published := by
  rw [increment]
  dsimp only
  split
  · refine ⟨?_, Nat.le_add_right _ _⟩
    dsimp only [flush]
    omega
  · exact ⟨rfl, Nat.le_refl _⟩

/-- Calls in the order of the inputs, or merged from shards of the inputs that are each in
order, and not too small for a thread. -/
def Sharded (inputs calls : List Bytes) : Prop :=
  ∃ parts, parts.flatten = inputs ∧ Interleaved parts calls ∧
    (parts = [inputs] ∨ ∀ part ∈ parts, ParallelEc.kMinInputsPerThread ≤ part.length)

theorem Sharded.perm {inputs calls : List Bytes} (h : Sharded inputs calls) : calls.Perm inputs := by
  obtain ⟨parts, rfl, hcalls, -⟩ := h
  exact hcalls.perm

/-- There are not two shards of fewer inputs than `kMinInputsForThreads`. -/
theorem Sharded.inOrder {inputs calls : List Bytes} (h : Sharded inputs calls)
    (hsmall : inputs.length < ParallelEc.kMinInputsForThreads) : calls = inputs := by
  obtain ⟨parts, hflatten, hcalls, hparts⟩ := h
  rw [ParallelEc.kMinInputsForThreads] at hsmall
  have hone : ∀ part, parts = [part] → calls = inputs := by
    rintro part rfl
    rw [List.flatten_singleton] at hflatten
    exact (interleaved_singleton_iff.mp hcalls).trans hflatten
  rcases hparts with hparts | hparts
  · exact hone _ hparts
  · cases parts with
    | nil => exact (List.perm_nil.mp hcalls.perm).trans hflatten
    | cons first rest =>
      cases rest with
      | nil => exact hone first rfl
      | cons second rest =>
        have hfirst := hparts first (by simp)
        have hsecond := hparts second (by simp)
        rw [ParallelEc.kMinInputsPerThread] at hfirst hsecond
        rw [← hflatten, List.flatten_cons, List.flatten_cons, List.length_append, List.length_append] at hsmall
        omega

structure Pass.Complete (inputs : List Bytes) (p : Pass) : Prop where
  calls : Sharded inputs p.calls
  published : p.published = inputs.length

section Loop
variable {op : ElementOp}

/-- The loop applies the operation in order, and its counter loses nothing. -/
theorem elementLoop_ok {inputs outputs calls results : List Bytes} {counter : ProgressCounter}
    (h : (elementLoop op inputs outputs calls counter).result = .ok results) :
    (elementLoop op inputs outputs calls counter).calls = calls ++ inputs ∧
      (elementLoop op inputs outputs calls counter).published =
        counter.published + counter.pending + inputs.length := by
  induction inputs generalizing outputs calls counter with
  | nil => exact ⟨(List.append_nil calls).symm, rfl⟩
  | cons input inputs ih =>
    rw [elementLoop] at h ⊢
    cases hop : op input with
    | error e =>
      rw [hop] at h
      cases h
    | ok output =>
      rw [hop] at h
      obtain ⟨hcalls, hpublished⟩ := ih h
      have hcounter := counter.increment_spec.1
      refine ⟨hcalls.trans (List.append_assoc _ _ _), hpublished.trans ?_⟩
      rw [List.length_cons]
      omega

theorem elementLoop_complete {inputs results : List Bytes}
    (h : (elementLoop op inputs [] [] {}).result = .ok results) :
    (elementLoop op inputs [] [] {}).Complete inputs where
  calls := ⟨[inputs], List.flatten_singleton, interleaved_singleton_iff.mpr (elementLoop_ok h).1, Or.inl rfl⟩
  published := (elementLoop_ok h).2.trans (Nat.zero_add _)

end Loop

namespace ParallelEc

section Ledger
variable (inputs : List Bytes) (numThreads : Nat)

def turns (t : Nat) : ShardState → Nat
  | .notStarted => 0
  | .running i _ => i - cut inputs.length numThreads t
  | .finished => cut inputs.length numThreads (t + 1) - cut inputs.length numThreads t

def held : ShardState → Nat
  | .running _ counter => counter.pending
  | _ => 0

@[simp] theorem held_notStarted : held .notStarted = 0 := rfl
@[simp] theorem held_running (i : Nat) (counter : ProgressCounter) :
    held (.running i counter) = counter.pending := rfl
@[simp] theorem held_finished : held .finished = 0 := rfl

/-- The books of a run in which the operation does not fail: each shard has gone through its
range in order, and what is not in the progress slot is held back by a counter. -/
structure Ledger (m : Machine) : Prop where
  inOrder : ∀ t < numThreads, ofThread m.processed t =
    List.range' (cut inputs.length numThreads t) (turns inputs numThreads t (m.shards t))
  published : m.published + ∑ t ∈ Finset.range numThreads, held (m.shards t) = m.processed.length

variable {inputs numThreads}

theorem Ledger.initial : Ledger inputs numThreads (initial inputs) where
  inOrder _ _ := rfl
  published := (Nat.zero_add _).trans (Finset.sum_eq_zero fun _ _ => rfl)

/-- Only the shards, the log and the slot matter to the books. -/
theorem Ledger.congr {m m' : Machine} (h : Ledger inputs numThreads m) (hshards : m'.shards = m.shards)
    (hprocessed : m'.processed = m.processed) (hpublished : m'.published = m.published) :
    Ledger inputs numThreads m' := by
  refine ⟨?_, ?_⟩
  · rw [hshards, hprocessed]
    exact h.inOrder
  · rw [hshards, hprocessed, hpublished]
    exact h.published

/-- A change of one shard changes what is held back by what it holds. -/
theorem sum_held_update (shards : Nat → ShardState) {t : Nat} (ht : t < numThreads)
    (state : ShardState) :
    (∑ s ∈ Finset.range numThreads, held (Function.update shards t state s)) + held (shards t) =
      (∑ s ∈ Finset.range numThreads, held (shards s)) + held state := by
  have hmem := Finset.mem_range.mpr ht
  rw [← Finset.add_sum_erase _ _ hmem, ← Finset.add_sum_erase _ (fun s => held (shards s)) hmem,
    Function.update_self]
  have hothers : ∑ s ∈ (Finset.range numThreads).erase t, held (Function.update shards t state s) =
      ∑ s ∈ (Finset.range numThreads).erase t, held (shards s) :=
    Finset.sum_congr rfl fun s hs => by rw [Function.update_of_ne (Finset.ne_of_mem_erase hs)]
  rw [hothers]
  omega

theorem Ledger.startShard {m : Machine} (h : Ledger inputs numThreads m) {t : Nat} (ht : t < numThreads)
    (hidle : m.shards t = .notStarted) : Ledger inputs numThreads (startShard inputs numThreads m t) where
  inOrder s hs := by
    have horder := h.inOrder s hs
    by_cases hst : s = t
    · subst hst
      rw [hidle] at horder
      simp only [ParallelEc.startShard, Function.update_self, shardRange_eq inputs hs, turns, Nat.sub_self]
      exact horder
    · simp only [ParallelEc.startShard, Function.update_of_ne hst]
      exact horder
  published := by
    have hsum := sum_held_update m.shards ht (.running (shardRange inputs numThreads t).1 {})
    rw [hidle] at hsum
    have hpublished := h.published
    simp only [held_notStarted, held_running] at hsum
    simp only [ParallelEc.startShard]
    omega

/-- A turn that computes an output: one more in the log, and one more held back or added. -/
private theorem Ledger.advance {m : Machine} (h : Ledger inputs numThreads m) {t i : Nat}
    {counter : ProgressCounter} (ht : t < numThreads) (hrunning : m.shards t = .running i counter)
    (hlo : cut inputs.length numThreads t ≤ i) (outputs : List Bytes) :
    Ledger inputs numThreads { m with
      processed := m.processed ++ [(t, i)]
      shards := Function.update m.shards t (.running (i + 1) counter.increment)
      outputs := outputs
      published := m.published + (counter.increment.published - counter.published) } where
  inOrder s hs := by
    have horder := h.inOrder s hs
    dsimp only
    rw [ofThread_append]
    by_cases hst : s = t
    · subst hst
      rw [hrunning] at horder
      rw [horder, ofThread_singleton_self, Function.update_self, turns, turns,
        Nat.sub_add_comm hlo, List.range'_concat, Nat.one_mul, Nat.add_sub_cancel' hlo]
    · rw [ofThread_singleton_of_ne (Ne.symm hst), List.append_nil, Function.update_of_ne hst, horder]
  published := by
    have hsum := sum_held_update m.shards ht (.running (i + 1) counter.increment)
    rw [hrunning, held_running, held_running] at hsum
    obtain ⟨hcount, hgrows⟩ := counter.increment_spec
    have hpublished := h.published
    rw [List.length_append, List.length_singleton]
    dsimp only
    omega

/-- A turn at the end of the range: what was held back is added. -/
private theorem Ledger.complete {m : Machine} (h : Ledger inputs numThreads m) {t i : Nat}
    {counter : ProgressCounter} (ht : t < numThreads) (hrunning : m.shards t = .running i counter)
    (hend : i = cut inputs.length numThreads (t + 1)) (status : Status) :
    Ledger inputs numThreads (finishShard m t counter status) where
  inOrder s hs := by
    have horder := h.inOrder s hs
    by_cases hst : s = t
    · subst hst
      rw [hrunning, turns, hend] at horder
      simp only [finishShard, Function.update_self, turns]
      exact horder
    · simp only [finishShard, Function.update_of_ne hst]
      exact horder
  published := by
    have hsum := sum_held_update m.shards ht .finished
    rw [hrunning, held_running, held_finished] at hsum
    have hpublished := h.published
    simp only [finishShard]
    omega

theorem Ledger.step {op : ElementOp} (hall : ∀ input ∈ inputs, ∃ output, op input = .ok output)
    {m m' : Machine} (hreached : Reached numThreads op inputs m) (h : Ledger inputs numThreads m)
    {choice : Choice} (hstep : step op inputs numThreads m choice = some m') :
    Ledger inputs numThreads m' := by
  have hseen := hreached.seenTo
  cases step_cases hreached hstep with
  | @spawn k hcaller hk =>
    rw [hcaller] at hseen
    have hone := hreached.nextShard.1
    exact (h.startShard hk ((hseen.2 k).mpr (by omega))).congr rfl rfl rfl
  | own hcaller hown => exact h.congr rfl rfl rfl
  | @start t rest hcaller hidle =>
    rw [hcaller] at hseen
    exact h.startShard (hseen.2.2.1 t (List.mem_cons_self ..)) hidle
  | drop hcaller hfinished => exact h.congr rfl rfl rfl
  | @turn t i counter _ ht hrunning hturn =>
    have hstanding := hreached.shards.standing t ht
    rw [hrunning] at hstanding
    obtain ⟨-, hlo, hhi, -⟩ := hstanding
    rcases shardStep_cases ht hturn with ⟨input, output, -, -, -, rfl⟩ |
      ⟨input, e, -, hinput, hop, rfl⟩ | ⟨hi, rfl⟩
    · exact h.advance ht hrunning hlo _
    · obtain ⟨output, hok⟩ := hall input (List.mem_of_getElem? hinput)
      rw [hop] at hok
      cases hok
    · exact h.complete ht hrunning (Nat.le_antisymm hhi hi) _
  | join hcaller hfinished => exact h.congr rfl rfl rfl

theorem Ledger.run {op : ElementOp} (hall : ∀ input ∈ inputs, ∃ output, op input = .ok output)
    {m m' : Machine} {choices : List Choice} (hreached : Reached numThreads op inputs m)
    (h : Ledger inputs numThreads m) (hrun : run op inputs numThreads m choices = some m') :
    Ledger inputs numThreads m' := by
  induction choices generalizing m with
  | nil =>
    cases hrun
    exact h
  | cons choice choices ih =>
    rw [ParallelEc.run] at hrun
    cases hstep : ParallelEc.step op inputs numThreads m choice with
    | none =>
      rw [hstep] at hrun
      cases hrun
    | some m₁ =>
      rw [hstep] at hrun
      exact ih (hreached.step hstep) (h.step hall hreached hstep) hrun

def shardIndices (n numThreads : Nat) : Nat → List (List Nat)
  | 0 => []
  | t + 1 => shardIndices n numThreads t ++
      [List.range' (cut n numThreads t) (cut n numThreads (t + 1) - cut n numThreads t)]

@[simp] theorem length_shardIndices (n numThreads s : Nat) :
    (shardIndices n numThreads s).length = s := by
  induction s with
  | zero => rfl
  | succ s ih => rw [shardIndices, List.length_append, ih, List.length_singleton]

theorem getElem_shardIndices (n numThreads : Nat) {s t : Nat} (ht : t < (shardIndices n numThreads s).length) :
    (shardIndices n numThreads s)[t] =
      List.range' (cut n numThreads t) (cut n numThreads (t + 1) - cut n numThreads t) := by
  induction s with
  | zero => exact absurd ht (Nat.not_lt_zero t)
  | succ s ih =>
    simp only [shardIndices]
    rw [length_shardIndices] at ht
    rcases Nat.lt_succ_iff_lt_or_eq.mp ht with hlt | rfl
    · rw [List.getElem_append_left (by rwa [length_shardIndices])]
      exact ih _
    · rw [List.getElem_append_right (by rw [length_shardIndices]), List.getElem_singleton]

theorem flatten_shardIndices (n numThreads s : Nat) :
    (shardIndices n numThreads s).flatten = List.range (cut n numThreads s) := by
  induction s with
  | zero => rw [cut_zero]; rfl
  | succ s ih =>
    have hmono := cut_mono n numThreads (Nat.le_succ s)
    have happend : List.range' 0 (cut n numThreads s) ++ List.range' (0 + cut n numThreads s)
        (cut n numThreads (s + 1) - cut n numThreads s) =
        List.range' 0 (cut n numThreads s + (cut n numThreads (s + 1) - cut n numThreads s)) :=
      List.range'_append_1
    rw [Nat.zero_add, Nat.add_sub_cancel' hmono] at happend
    rw [shardIndices, List.flatten_append, ih, List.flatten_singleton, List.range_eq_range',
      List.range_eq_range', happend]

end Ledger

section Complete
variable {numThreads : Nat} {op : ElementOp} {inputs : List Bytes}

theorem chooseThreadCount_mul_le {hardware n : Nat} (h : 1 < chooseThreadCount hardware n) :
    chooseThreadCount hardware n * kMinInputsPerThread ≤ n := by
  rw [chooseThreadCount] at h ⊢
  split at h <;> rename_i hsmall
  · exact absurd h (lt_irrefl 1)
  · rw [if_neg hsmall]
    dsimp only at h ⊢
    generalize (if hardware = 0 then 1 else hardware) = hw at h ⊢
    have hwork := Nat.div_mul_le_self n kMinInputsPerThread
    have hmin : max 1 (min hw (n / kMinInputsPerThread)) ≤ n / kMinInputsPerThread := by omega
    exact (Nat.mul_le_mul_right _ hmin).trans hwork

/-- Once every shard is through, the books are those of a complete pass. -/
theorem Ledger.pass_complete {m : Machine} (hreached : Reached numThreads op inputs m)
    (h : Ledger inputs numThreads m) {status : Status} (hreturned : m.caller = .returned status)
    (hlarge : numThreads * kMinInputsPerThread ≤ inputs.length) : (m.pass inputs status).Complete inputs := by
  have hseen := hreached.seenTo
  rw [hreturned] at hseen
  have hpos : 0 < numThreads := hreached.nextShard.1.trans hreached.nextShard.2
  have hindices : Interleaved (shardIndices inputs.length numThreads numThreads)
      (m.processed.map Prod.snd) := by
    refine ⟨m.processed, rfl, fun p hp => ?_, fun t ht => ?_⟩
    · rw [length_shardIndices]
      exact (hreached.shards.processed p hp).1
    · rw [getElem_shardIndices]
      rw [length_shardIndices] at ht
      rw [h.inOrder t ht, hseen.1 t ht, turns]
  have hcalls := hindices.map (fun i => inputs.getD i [])
  rw [List.map_map] at hcalls
  have hflatten : ((shardIndices inputs.length numThreads numThreads).map
      (List.map (fun i => inputs.getD i []))).flatten = inputs := by
    rw [← List.map_flatten, flatten_shardIndices, cut_numThreads _ hpos]
    refine List.ext_getElem (by simp) fun i _ hi => ?_
    rw [List.getElem_map, List.getElem_range, List.getD_eq_getElem _ _ hi]
  have hshards : ∀ part ∈ (shardIndices inputs.length numThreads numThreads).map
      (List.map (fun i => inputs.getD i [])), kMinInputsPerThread ≤ part.length := by
    intro part hpart
    obtain ⟨indices, hindices, rfl⟩ := List.mem_map.mp hpart
    obtain ⟨t, ht, rfl⟩ := List.mem_iff_getElem.mp hindices
    have hshare := (Nat.le_div_iff_mul_le hpos).mpr ((Nat.mul_comm _ _).trans_le hlarge)
    rw [List.length_map, getElem_shardIndices, List.length_range', cut_succ, Nat.add_sub_cancel_left]
    exact hshare.trans (Nat.le_add_right _ _)
  refine ⟨⟨_, hflatten, hcalls, Or.inr hshards⟩, ?_⟩
  have hlength := hcalls.perm.length_eq
  rw [hflatten, List.length_map] at hlength
  have hpublished := h.published
  rw [Finset.sum_eq_zero fun t ht => by rw [hseen.1 t (Finset.mem_range.mp ht), held_finished],
    Nat.add_zero] at hpublished
  exact hpublished.trans hlength

theorem TransformElements.complete {hardware : Nat} {p : Pass} (h : TransformElements hardware op inputs p)
    {results : List Bytes} (hresult : p.result = .ok results) : p.Complete inputs := by
  have hmap := h.result.symm.trans hresult
  rw [TransformElements] at h
  split at h <;> rename_i hempty
  · rw [h, hempty]
    exact ⟨⟨[[]], rfl, interleaved_singleton_iff.mpr rfl, Or.inl rfl⟩, rfl⟩
  · dsimp only at h
    split at h <;> rename_i hcount
    · rw [h] at hresult ⊢
      exact elementLoop_complete hresult
    · obtain ⟨choices, m, status, hrun, hreturned, rfl⟩ := h
      have hinitial : Reached (chooseThreadCount hardware inputs.length) op inputs (initial inputs) :=
        .initial (chooseThreadCount_pos hardware _)
      have hledger := Ledger.initial.run (Traversal.exists_mapM_ok_iff.mp ⟨results, hmap⟩) hinitial hrun
      exact hledger.pass_complete (hinitial.run hrun) hreturned (chooseThreadCount_mul_le (not_le.mp hcount))

end Complete

section Schedule
variable {numThreads : Nat} {op : ElementOp} {inputs : List Bytes}

theorem processed_prefix_of_run {m m' : Machine} {choices : List Choice}
    (hreached : Reached numThreads op inputs m) (hrun : run op inputs numThreads m choices = some m') :
    m.processed <+: m'.processed := by
  induction choices generalizing m with
  | nil =>
    cases hrun
    exact List.prefix_refl _
  | cons choice choices ih =>
    rw [ParallelEc.run] at hrun
    cases hstep : ParallelEc.step op inputs numThreads m choice with
    | none =>
      rw [hstep] at hrun
      cases hrun
    | some m₁ =>
      rw [hstep] at hrun
      refine List.IsPrefix.trans ?_ (ih (hreached.step hstep) hrun)
      cases step_cases hreached hstep with
      | turn ht _ hturn =>
        rcases shardStep_cases ht hturn with ⟨_, _, -, -, -, rfl⟩ | ⟨_, _, -, -, -, rfl⟩ | ⟨-, rfl⟩
        · exact List.prefix_append _ _
        · exact List.prefix_append _ _
        · exact List.prefix_refl _
      | _ => exact List.prefix_refl _

/-- The second shard may take its first turn before the first shard does. -/
theorem exists_pass_ahead (op : ElementOp) {hardware : Nat} (hcount : 2 ≤ chooseThreadCount hardware inputs.length)
    (hshard : cut inputs.length (chooseThreadCount hardware inputs.length) 1 <
      cut inputs.length (chooseThreadCount hardware inputs.length) 2) :
    ∃ p, TransformElements hardware op inputs p ∧ p.calls.head? =
      some (inputs.getD (cut inputs.length (chooseThreadCount hardware inputs.length) 1) []) := by
  have hempty : inputs ≠ [] := by
    rintro rfl
    simp [cut] at hshard
  have hmany : ¬ chooseThreadCount hardware inputs.length ≤ 1 := by omega
  simp only [TransformElements, if_neg hempty, if_neg hmany]
  clear hmany
  generalize chooseThreadCount hardware inputs.length = numThreads at hcount hshard
  have hinitial : Reached numThreads op inputs (initial inputs) := .initial (by omega)
  have hspawn : step op inputs numThreads (initial inputs) .caller = some
      { startShard inputs numThreads (initial inputs) 1 with caller := .spawning 2, nextShard := 2 } := by
    simp only [step, initial, if_pos (show 1 < numThreads by omega)]
  have hspawned := hinitial.step hspawn
  obtain ⟨m, hturn⟩ : ∃ m, shardStep op inputs numThreads
      { startShard inputs numThreads (initial inputs) 1 with caller := .spawning 2, nextShard := 2 }
      1 (cut inputs.length numThreads 1) {} = some m := exists_shardStep hspawned (by omega)
  have hworker : step op inputs numThreads
      { startShard inputs numThreads (initial inputs) 1 with caller := .spawning 2, nextShard := 2 }
      (.worker 1) = some m := by
    simp only [step, startShard, Function.update_self, shardRange_eq inputs (show 1 < numThreads by omega)]
      at hturn ⊢
    exact hturn
  have hprocessed : m.processed = [(1, cut inputs.length numThreads 1)] := by
    rcases shardStep_cases (show 1 < numThreads by omega) hturn with ⟨_, _, -, -, -, rfl⟩ |
      ⟨_, _, -, -, -, rfl⟩ | ⟨hend, -⟩
    · rfl
    · rfl
    · exact absurd hshard (not_lt.mpr hend)
  have hahead := hspawned.step hworker
  obtain ⟨choices, m', status, hrun, hreturned⟩ := exists_return hahead
  refine ⟨_, ⟨.caller :: .worker 1 :: choices, m', status, ?_, hreturned, rfl⟩, ?_⟩
  · rw [run, hspawn, Option.bind_eq_bind, Option.bind_some, run, hworker]
    exact hrun
  · obtain ⟨rest, hrest⟩ := processed_prefix_of_run hahead hrun
    simp only [Machine.pass, ← hrest, hprocessed]
    rfl

/-- Any pass a call may make is made on some host. -/
theorem exists_threads {hardware : Nat} {p : Pass} (h : TransformElements hardware op inputs p) :
    ∃ threads : Threads, ∀ moment, threads.pass moment op inputs = p := by
  classical
  refine ⟨⟨hardware, fun _ op' inputs' => if op' = op ∧ inputs' = inputs then p
    else (exists_pass hardware op' inputs').choose, fun _ op' inputs' => ?_⟩, fun _ => if_pos ⟨rfl, rfl⟩⟩
  split <;> rename_i hsame
  · rw [hsame.1, hsame.2]
    exact h
  · exact (exists_pass hardware op' inputs').choose_spec

end Schedule

end ParallelEc

/-- In either build a pass without an error has applied the operation to every element once. -/
theorem Build.transformElements_complete (build : Build) (moment : Nat) {op : ElementOp}
    {inputs results : List Bytes} (h : inputs.mapM op = .ok results) :
    (build.transformElements moment op inputs).Complete inputs := by
  have hresult := (build.transformElements_result moment op inputs).trans h
  cases build with
  | sequential => exact elementLoop_complete hresult
  | threaded threads => exact (threads.returns moment op inputs).complete hresult

/-- Without threads the operation is applied to the elements in order. -/
theorem Build.transformElements_sequential (moment : Nat) {op : ElementOp} {inputs results : List Bytes}
    (h : inputs.mapM op = .ok results) :
    (Build.sequential.transformElements moment op inputs).calls = inputs :=
  (elementLoop_ok ((Build.transformElements_result .sequential moment op inputs).trans h)).1

end PrivateSetIntersection
