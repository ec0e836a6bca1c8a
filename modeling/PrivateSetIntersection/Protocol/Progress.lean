import PrivateSetIntersection.Protocol.Faults

/-! The progress slot while a call runs: how far what a poll reads may be from what has been
computed, in every interleaving and whatever fails. -/
namespace PrivateSetIntersection
open Library Interleaving

theorem ProgressCounter.increment_pending_lt {counter : ProgressCounter} (h : counter.pending < kBatch) :
    counter.increment.pending < kBatch := by
  rw [increment]
  dsimp only
  split <;> rename_i hbatch
  · exact Nat.lt_of_le_of_lt (Nat.zero_le _) h
  · exact not_le.mp hbatch

namespace ParallelEc

/-- What a poll of the slot reads: 32 bits, set to zero before the call. -/
def Machine.slot (m : Machine) : Int := (m.published : Int).bmod (2 ^ 32)

def ShardState.isRunning : ShardState → Bool
  | .running _ _ => true
  | _ => false

/-- Below 2 ^ 31 the slot does not wrap around. -/
theorem Machine.slot_eq {m : Machine} {n : Nat} (h : m.published = n) (hn : n < 2 ^ 31) : m.slot = n := by
  unfold slot
  rw [h, Int.bmod_def]
  omega

section Books
variable (op : ElementOp) (inputs : List Bytes) (numThreads : Nat)

/-- The elements that have been encrypted, re-encrypted or decrypted so far, each from its
`Increment` on. -/
def computed (m : Machine) : Nat := m.processed.countP (fun p => (op (inputs.getD p.2 [])).isOk)

def runningShards (m : Machine) : Nat := ((Finset.range numThreads).filter (fun t => (m.shards t).isRunning)).card

/-- The books of any run: what has been computed is in the slot or is held back, less than a
batch by each shard. -/
structure Books (m : Machine) : Prop where
  published : m.published + ∑ t ∈ Finset.range numThreads, held (m.shards t) = computed op inputs m
  batch : ∀ t < numThreads, held (m.shards t) < ProgressCounter.kBatch

variable {op inputs numThreads}

theorem Books.initial : Books op inputs numThreads (initial inputs) where
  published := (Nat.zero_add _).trans (Finset.sum_eq_zero fun _ _ => rfl)
  batch _ _ := show 0 < ProgressCounter.kBatch by decide

theorem Books.congr {m m' : Machine} (h : Books op inputs numThreads m) (hshards : m'.shards = m.shards)
    (hprocessed : m'.processed = m.processed) (hpublished : m'.published = m.published) :
    Books op inputs numThreads m' := by
  refine ⟨?_, ?_⟩
  · rw [computed, hshards, hprocessed, hpublished]
    exact h.published
  · rw [hshards]
    exact h.batch

/-- A shard that goes on to `state` keeps the books if what it adds to the slot and holds back
is what it held back and has computed. -/
theorem Books.update {m m' : Machine} (h : Books op inputs numThreads m) {t : Nat} (ht : t < numThreads)
    {state : ShardState} (hshards : m'.shards = Function.update m.shards t state)
    (hbatch : held state < ProgressCounter.kBatch) {k : Nat}
    (hcomputed : computed op inputs m' = computed op inputs m + k)
    (hcount : m'.published + held state = m.published + held (m.shards t) + k) :
    Books op inputs numThreads m' := by
  refine ⟨?_, fun s hs => ?_⟩
  · have hsum := sum_held_update m.shards ht state
    have hpublished := h.published
    rw [hshards, hcomputed]
    omega
  · rw [hshards]
    by_cases hst : s = t
    · rw [hst, Function.update_self]
      exact hbatch
    · rw [Function.update_of_ne hst]
      exact h.batch s hs

theorem Books.startShard {m : Machine} (h : Books op inputs numThreads m) {t : Nat} (ht : t < numThreads)
    (hidle : m.shards t = .notStarted) : Books op inputs numThreads (startShard inputs numThreads m t) := by
  refine h.update ht rfl ?_ (Nat.add_zero _).symm ?_
  · show 0 < ProgressCounter.kBatch
    decide
  · rw [hidle]
    rfl

theorem computed_append {m m' : Machine} {t i : Nat} {input : Bytes} (hinput : inputs[i]? = some input)
    (hprocessed : m'.processed = m.processed ++ [(t, i)]) :
    computed op inputs m' = computed op inputs m + if (op input).isOk then 1 else 0 := by
  have hget : inputs.getD i [] = input := by rw [List.getD_eq_getElem?_getD, hinput, Option.getD_some]
  rw [computed, computed, hprocessed, List.countP_append, List.countP_singleton, hget]

theorem Books.step {m m' : Machine} (h : Books op inputs numThreads m) (hreached : Reached numThreads op inputs m)
    {choice : Choice} (hstep : step op inputs numThreads m choice = some m') :
    Books op inputs numThreads m' ∧ m.published ≤ m'.published := by
  have hseen := hreached.seenTo
  cases step_cases hreached hstep with
  | @spawn k hcaller hk =>
    rw [hcaller] at hseen
    have hone := hreached.nextShard.1
    exact ⟨(h.startShard hk ((hseen.2 k).mpr (by omega))).congr rfl rfl rfl, Nat.le_refl _⟩
  | own hcaller hown => exact ⟨h.congr rfl rfl rfl, Nat.le_refl _⟩
  | @start t rest hcaller hidle =>
    rw [hcaller] at hseen
    exact ⟨h.startShard (hseen.2.2.1 t List.mem_cons_self) hidle, Nat.le_refl _⟩
  | drop hcaller hfinished => exact ⟨h.congr rfl rfl rfl, Nat.le_refl _⟩
  | @turn t i counter _ ht hrunning hturn =>
    have hbatch := h.batch t ht
    rw [hrunning, held_running] at hbatch
    rcases shardStep_cases ht hturn with ⟨input, output, -, hinput, hop, rfl⟩ |
      ⟨input, e, -, hinput, hop, rfl⟩ | ⟨-, rfl⟩
    · obtain ⟨hcount, hgrows⟩ := counter.increment_spec
      refine ⟨h.update ht rfl (ProgressCounter.increment_pending_lt hbatch) (computed_append hinput rfl) ?_,
        Nat.le_add_right _ _⟩
      rw [hop, hrunning, held_running, held_running]
      change m.published + (counter.increment.published - counter.published) + counter.increment.pending =
        m.published + counter.pending + 1
      omega
    · refine ⟨h.update ht rfl (by decide) (computed_append hinput rfl) ?_, Nat.le_add_right _ _⟩
      rw [hop, hrunning]
      rfl
    · refine ⟨h.update ht rfl (by decide) (Nat.add_zero _).symm ?_, Nat.le_add_right _ _⟩
      rw [hrunning]
      rfl
  | join hcaller hfinished => exact ⟨h.congr rfl rfl rfl, Nat.le_refl _⟩

theorem Books.run {m m' : Machine} {choices : List Choice} (h : Books op inputs numThreads m)
    (hreached : Reached numThreads op inputs m) (hrun : run op inputs numThreads m choices = some m') :
    Books op inputs numThreads m' ∧ m.published ≤ m'.published := by
  induction choices generalizing m with
  | nil =>
    cases hrun
    exact ⟨h, Nat.le_refl _⟩
  | cons choice choices ih =>
    obtain ⟨m₁, hstep, hrest⟩ := Option.bind_eq_some_iff.mp hrun
    obtain ⟨hbooks, hgrows⟩ := h.step hreached hstep
    obtain ⟨hbooks', hgrows'⟩ := ih hbooks (hreached.step hstep) hrest
    exact ⟨hbooks', hgrows.trans hgrows'⟩

theorem Books.sum_held_le {m : Machine} (h : Books op inputs numThreads m) :
    ∑ t ∈ Finset.range numThreads, held (m.shards t) ≤ (ProgressCounter.kBatch - 1) * runningShards numThreads m := by
  rw [runningShards, Nat.mul_comm, ← smul_eq_mul, ← Finset.sum_const, Finset.sum_filter]
  apply Finset.sum_le_sum
  intro t ht
  have hbatch := h.batch t (Finset.mem_range.mp ht)
  cases hstate : m.shards t with
  | running i counter =>
    rw [hstate] at hbatch
    exact Nat.le_sub_one_of_lt hbatch
  | notStarted => exact Nat.zero_le _
  | finished => exact Nat.zero_le _

theorem Reached.length_processed_le {m : Machine} (h : Reached numThreads op inputs m) :
    m.processed.length ≤ inputs.length := by
  have hpos : 0 < numThreads := h.nextShard.1.trans h.nextShard.2
  have hsubset : m.processed.map Prod.snd ⊆ List.range inputs.length := by
    intro i hi
    obtain ⟨p, hp, rfl⟩ := List.mem_map.mp hi
    obtain ⟨ht, -, hhi⟩ := h.shards.processed p hp
    have hend := cut_mono inputs.length numThreads ht
    rw [cut_numThreads _ hpos] at hend
    exact List.mem_range.mpr (hhi.trans_le hend)
  have hlength := (h.shards.processedOnce.subperm hsubset).length_le
  rwa [List.length_map, List.length_range] at hlength

theorem run_trans {m m₁ m₂ : Machine} {choices more : List Choice}
    (h : ParallelEc.run op inputs numThreads m choices = some m₁)
    (h' : ParallelEc.run op inputs numThreads m₁ more = some m₂) :
    ParallelEc.run op inputs numThreads m (choices ++ more) = some m₂ := by
  induction choices generalizing m with
  | nil =>
    cases h
    exact h'
  | cons choice choices ih =>
    obtain ⟨next, hstep, hrest⟩ := Option.bind_eq_some_iff.mp h
    rw [List.cons_append, ParallelEc.run, hstep]
    exact ih hrest

/-- A call that has returned has added all it computed; without an error that is every element. -/
theorem Reached.published_returned {m : Machine} {choices : List Choice} (hpos : 0 < numThreads)
    (hrun : ParallelEc.run op inputs numThreads (ParallelEc.initial inputs) choices = some m) {status : Status}
    (hreturned : m.caller = .returned status) :
    m.published = computed op inputs m ∧ (status = .ok → m.published = inputs.length) := by
  have hreached := (Reached.initial hpos).run hrun
  have hseen := hreached.seenTo
  rw [hreturned] at hseen
  have hnone : ∑ t ∈ Finset.range numThreads, held (m.shards t) = 0 :=
    Finset.sum_eq_zero fun t ht => by rw [hseen.1 t (Finset.mem_range.mp ht), held_finished]
  have hbooks := (Books.initial.run (.initial hpos) hrun).1.published
  rw [hnone, Nat.add_zero] at hbooks
  refine ⟨hbooks, ?_⟩
  rintro rfl
  have hall : ∀ input ∈ inputs, ∃ output, op input = .ok output :=
    Traversal.exists_mapM_ok_iff.mp
      ⟨m.outputs, ((hreached.transformed hreturned).unique (mapM_transformed op inputs)).symm⟩
  have hledger := Ledger.initial.run hall (.initial hpos) hrun
  have hlog := hledger.published
  rw [hnone, Nat.add_zero] at hlog
  refine Nat.le_antisymm (hlog ▸ hreached.length_processed_le) ?_
  have hsubset : List.range inputs.length ⊆ m.processed.map Prod.snd := by
    intro i hi
    obtain ⟨t, ht, hlo, hhi⟩ := exists_cut (s := numThreads)
      (by rw [cut_numThreads _ hpos]; exact List.mem_range.mp hi)
    have hmem : i ∈ ofThread m.processed t := by
      rw [hledger.inOrder t ht, hseen.1 t ht, turns, List.mem_range'_1]
      omega
    obtain ⟨p, hp, rfl⟩ := List.mem_map.mp hmem
    exact List.mem_map_of_mem (List.mem_of_mem_filter hp)
  have hlength := (List.nodup_range.subperm hsubset).length_le
  rwa [List.length_range, List.length_map, ← hlog] at hlength

end Books

section Slot
variable {op : ElementOp} {inputs : List Bytes} {numThreads : Nat} {faults : Faults inputs.length numThreads}

theorem computed_strip {m : Machine} (h : Reached numThreads (attemptAt op inputs faults) (indices inputs) m) :
    computed op inputs (strip inputs faults m) = computed (attemptAt op inputs faults) (indices inputs) m := by
  have hpos : 0 < numThreads := h.nextShard.1.trans h.nextShard.2
  rw [computed, computed, strip, List.countP_filter]
  apply List.countP_congr
  intro p hp
  obtain ⟨ht, -, hhi⟩ := h.shards.processed p hp
  have hend := cut_mono (indices inputs).length numThreads ht
  rw [cut_numThreads _ hpos, length_indices] at hend
  rw [length_indices] at hhi
  have hindex : (indices inputs).getD p.2 [] = List.replicate p.2 0 := by
    rw [List.getD_eq_getElem?_getD, getElem?_indices inputs (hhi.trans_le hend), Option.getD_some]
  rw [hindex, attemptAt_replicate, attempt]
  cases faults.find p.2 with
  | none => simp
  | some e => simp [Except.isOk, Except.toBool]

end Slot

/-- A poll never reads more than has been computed, nor behind it by more than an unfinished
batch of every running shard, nor less than before; of a call that has returned it reads all
that was computed, which without an error is every element. -/
theorem progress_never_overcounts {op : ElementOp} {inputs : List Bytes} {numThreads : Nat}
    (faults : Faults inputs.length numThreads) (hpos : 0 < numThreads) (hsize : inputs.length < 2 ^ 31)
    {choices more : List Choice} {m m' : Machine}
    (hrun : faultyRun op inputs numThreads faults (initial inputs) choices = some m)
    (hmore : faultyRun op inputs numThreads faults m more = some m') :
    (m.slot ≤ computed op inputs m ∧
      computed op inputs m ≤ m.slot + ((ProgressCounter.kBatch - 1) * runningShards numThreads m : Nat)) ∧
    m.slot ≤ m'.slot ∧ m'.slot ≤ inputs.length ∧
    ∀ status, m'.caller = .returned status →
      m'.slot = computed op inputs m' ∧ (status = .ok → m'.slot = inputs.length) := by
  obtain ⟨m₀, rfl, hreached, hrun₀⟩ := reached_of_faultyRun hpos hrun
  rw [faultyRun_strip] at hmore
  obtain ⟨m₁, hmore₁, rfl⟩ := Option.map_eq_some_iff.mp hmore
  have hreached₁ := hreached.run hmore₁
  have hbooks := (Books.initial.run (.initial hpos) hrun₀).1
  obtain ⟨hbooks₁, hgrows⟩ := hbooks.run hreached hmore₁
  have hcount := hbooks.published
  have hcount₁ := hbooks₁.published
  have hheld := hbooks.sum_held_le
  have hlog₁ : computed (attemptAt op inputs faults) (indices inputs) m₁ ≤ inputs.length := by
    rw [← length_indices inputs]
    exact List.countP_le_length.trans hreached₁.length_processed_le
  have hslot : (strip inputs faults m₀).slot = m₀.published := Machine.slot_eq rfl (by omega)
  have hslot₁ : (strip inputs faults m₁).slot = m₁.published := Machine.slot_eq rfl (by omega)
  rw [hslot, hslot₁, computed_strip hreached, computed_strip hreached₁]
  clear hslot hslot₁
  refine ⟨⟨by omega, ?_⟩, by omega, by omega, fun status hreturned => ?_⟩
  · change _ ≤ _ + (((ProgressCounter.kBatch - 1) * runningShards numThreads m₀ : Nat) : Int)
    omega
  obtain ⟨hall, hok⟩ := Reached.published_returned hpos (run_trans hrun₀ hmore₁) hreturned
  rw [length_indices] at hok
  exact ⟨congrArg Nat.cast hall, fun h => congrArg Nat.cast (hok h)⟩

/-- Both shards of three inputs run to the end. -/
theorem progress_never_overcounts_returned :
    let op : ElementOp := fun x => .ok (x ++ x)
    ∃ m, faultyRun op [[1], [2], [3]] 2 (.none 3 2) (initial [[1], [2], [3]])
        [.caller, .caller, .worker 1, .caller, .worker 1, .caller, .caller, .caller, .caller, .caller] = some m ∧
      m.slot = 3 := by
  intro op
  have hcaller : (faultyRun op [[1], [2], [3]] 2 (.none 3 2) (initial [[1], [2], [3]])
      [.caller, .caller, .worker 1, .caller, .worker 1, .caller, .caller, .caller, .caller, .caller]).map
        Machine.caller = some (.returned .ok) := by decide +kernel
  obtain ⟨m, hrun, hreturned⟩ := Option.map_eq_some_iff.mp hcaller
  have hprogress := @progress_never_overcounts op [[1], [2], [3]] 2 (.none 3 2) (by decide) (by decide) _ [] m m
    hrun rfl
  exact ⟨m, hrun, (hprogress.2.2.2 _ hreturned).2 rfl⟩

end ParallelEc

section Builds
variable {op : ElementOp}

/-- The loop adds what it has computed, up to the error if there is one. -/
theorem elementLoop_published (inputs outputs calls : List Bytes) (counter : ProgressCounter) :
    (elementLoop op inputs outputs calls counter).published + calls.countP (fun input => (op input).isOk) =
      counter.published + counter.pending +
        (elementLoop op inputs outputs calls counter).calls.countP (fun input => (op input).isOk) := by
  induction inputs generalizing outputs calls counter with
  | nil => rfl
  | cons input inputs ih =>
    rw [elementLoop]
    cases hop : op input with
    | error e =>
      dsimp only
      rw [List.countP_append, List.countP_singleton, hop]
      rfl
    | ok output =>
      have hrest := ih (outputs ++ [output]) (calls ++ [input]) counter.increment
      have hcounter := counter.increment_spec.1
      have hone : (calls ++ [input]).countP (fun input => (op input).isOk) =
          calls.countP (fun input => (op input).isOk) + 1 := by
        rw [List.countP_append, List.countP_singleton, hop]
        rfl
      rw [hone] at hrest
      dsimp only
      omega

/-- What a call adds to the slot is the number of elements the operation gave an output for,
in either build and whether the call fails or not. -/
theorem Build.transformElements_published (build : Build) (moment : Nat) (inputs : List Bytes) :
    (build.transformElements moment op inputs).published =
      (build.transformElements moment op inputs).calls.countP (fun input => (op input).isOk) := by
  have hloop : (elementLoop op inputs [] [] {}).published =
      (elementLoop op inputs [] [] {}).calls.countP (fun input => (op input).isOk) := by
    have hpublished := @elementLoop_published op inputs [] [] {}
    rw [List.countP_nil, Nat.add_zero] at hpublished
    exact hpublished.trans (Nat.zero_add _)
  cases build with
  | sequential => exact hloop
  | threaded threads =>
    have hreturns := threads.returns moment op inputs
    change (threads.pass moment op inputs).published = (threads.pass moment op inputs).calls.countP _
    rw [ParallelEc.TransformElements] at hreturns
    split at hreturns
    · rw [hreturns]
      rfl
    · dsimp only at hreturns
      split at hreturns
      · rw [hreturns]
        exact hloop
      · obtain ⟨choices, m, status, hrun, hreturned, hpass⟩ := hreturns
        simp only [hpass, ParallelEc.Machine.pass, List.countP_map]
        exact (ParallelEc.Reached.published_returned (ParallelEc.chooseThreadCount_pos _ _) hrun hreturned).1

end Builds

end PrivateSetIntersection
