import PrivateSetIntersection.Protocol.Ledger

/-! The sharded transform where `run_shard` meets faults: a cipher that is not cloned, and
whatever is thrown. A run with faults is a run without them of another operation, which fails
where the faults are. -/
namespace PrivateSetIntersection
open Library Interleaving

def resourceExhaustedError (message : String) : Error := ⟨.resourceExhausted, message⟩

namespace ParallelEc

/-- What `run_shard` makes of an exception. -/
def shardFailed : Error := resourceExhaustedError "elliptic-curve shard failed"

/-- The turns, by index, that end in a fault. Every shard but the first has to clone the cipher
before its first turn, and an exception may end any turn. -/
structure Faults (n numThreads : Nat) where
  find : Nat → Option Error
  allowed : ∀ i e, find i = some e → e = shardFailed ∨ ∃ t, 0 < t ∧ t < numThreads ∧ i = cut n numThreads t

def Faults.none (n numThreads : Nat) : Faults n numThreads := ⟨fun _ => .none, nofun⟩

section Step
variable (op : ElementOp) (inputs : List Bytes) (numThreads : Nat) (faults : Faults inputs.length numThreads)

/-- One turn of `run_shard(t)`. `ChooseThreadCount` leaves no shard without a first turn. -/
def faultyShardStep (m : Machine) (t i : Nat) (counter : ProgressCounter) : Option Machine :=
  match if i < (shardRange inputs numThreads t).2 then faults.find i else none with
  | some e => some (finishShard m t counter (.error e))
  | none => shardStep op inputs numThreads m t i counter

def faultyStep (m : Machine) : Choice → Option Machine
  | .spawnFails => step op inputs numThreads m .spawnFails
  | .caller =>
    match m.caller with
    | .running (t :: _) =>
      match m.shards t with
      | .running i counter => faultyShardStep op inputs numThreads faults m t i counter
      | _ => step op inputs numThreads m .caller
    | _ => step op inputs numThreads m .caller
  | .worker t =>
    if 1 ≤ t ∧ t < m.nextShard then
      match m.shards t with
      | .running i counter => faultyShardStep op inputs numThreads faults m t i counter
      | _ => none
    else none

def faultyRun (m : Machine) : List Choice → Option Machine
  | [] => some m
  | choice :: choices => do faultyRun (← faultyStep op inputs numThreads faults m choice) choices

variable {op inputs numThreads}

theorem faultyShardStep_none (m : Machine) (t i : Nat) (counter : ProgressCounter) :
    faultyShardStep op inputs numThreads (.none _ _) m t i counter = shardStep op inputs numThreads m t i counter := by
  rw [faultyShardStep, Faults.none, ite_self]

/-- Without faults the machine is the one of `TransformElements`. -/
theorem faultyRun_none (m : Machine) (choices : List Choice) :
    faultyRun op inputs numThreads (.none _ _) m choices = run op inputs numThreads m choices := by
  have hstep (m : Machine) (choice : Choice) :
      faultyStep op inputs numThreads (.none _ _) m choice = step op inputs numThreads m choice := by
    cases choice with
    | spawnFails => rfl
    | caller =>
      simp only [faultyStep, faultyShardStep_none]
      split
      · rename_i t rest hcaller
        rw [step, hcaller]
        dsimp only
        cases m.shards t <;> rfl
      · rfl
    | worker t =>
      cases hshard : m.shards t <;> simp only [faultyStep, step, hshard, faultyShardStep_none]
  induction choices generalizing m with
  | nil => rfl
  | cons choice choices ih =>
    rw [faultyRun, run, hstep]
    apply bind_congr
    intro m'
    exact ih m'

end Step

section Attempts
variable (op : ElementOp) (inputs : List Bytes) {numThreads : Nat} (faults : Faults inputs.length numThreads)

/-- What becomes of an index: its fault, or else what the operation gives. -/
def attempt (i : Nat) : Except Error Bytes :=
  match faults.find i with
  | some e => .error e
  | none => op (inputs.getD i [])

/-- The indices as inputs of their own, so that an operation can tell them apart. -/
def indices : List Bytes := (List.range inputs.length).map (List.replicate · 0)

def attemptAt : ElementOp := fun index => attempt op inputs faults index.length

/-- An index that meets a fault is not one the operation was applied to. -/
def strip (m : Machine) : Machine :=
  { m with processed := m.processed.filter (fun p => (faults.find p.2).isNone) }

@[simp] theorem length_indices : (indices inputs).length = inputs.length := by
  rw [indices, List.length_map, List.length_range]

theorem getElem?_indices {i : Nat} (hi : i < inputs.length) :
    (indices inputs)[i]? = some (List.replicate i 0) := by
  rw [indices, List.getElem?_map, List.getElem?_range hi]
  rfl

theorem attemptAt_replicate (i : Nat) : attemptAt op inputs faults (List.replicate i 0) = attempt op inputs faults i := by
  rw [attemptAt, List.length_replicate]

theorem mapM_attemptAt : (indices inputs).mapM (attemptAt op inputs faults) =
    (List.range inputs.length).mapM (attempt op inputs faults) := by
  rw [indices, List.mapM_map]
  exact congrArg (List.mapM · _) (funext (attemptAt_replicate op inputs faults))

theorem shardRange_indices (t : Nat) : shardRange (indices inputs) numThreads t = shardRange inputs numThreads t := by
  rw [shardRange, shardRange, length_indices]

theorem length_rangesFrom (base remainder left t start : Nat) :
    (rangesFrom base remainder left t start).length = left := by
  induction left generalizing t start with
  | zero => rfl
  | succ left ih => rw [rangesFrom, List.length_cons, ih]

theorem shardRange_snd_le (t : Nat) : (shardRange inputs numThreads t).2 ≤ inputs.length := by
  by_cases ht : t < numThreads
  · rw [shardRange_eq inputs ht]
    exact (cut_mono _ _ ht).trans (cut_numThreads _ (Nat.zero_lt_of_lt ht)).le
  · have hnone : shardRange inputs numThreads t = (0, 0) := by
      apply List.getD_eq_default
      rw [ranges, length_rangesFrom]
      exact not_lt.mp ht
    rw [hnone]
    exact Nat.zero_le _

end Attempts

section Square
variable {op : ElementOp} {inputs : List Bytes} {numThreads : Nat} (faults : Faults inputs.length numThreads)

theorem strip_log_fault (m : Machine) {t i : Nat} {e : Error} (h : faults.find i = some e) (counter : ProgressCounter) :
    strip inputs faults (finishShard { m with processed := m.processed ++ [(t, i)] } t counter (.error e)) =
      finishShard (strip inputs faults m) t counter (.error e) := by
  simp only [strip, finishShard, List.filter_append, List.filter_cons, h, Option.isNone_some, List.filter_nil,
    Bool.false_eq_true, if_false, List.append_nil]

theorem filter_log {log : List (Nat × Nat)} {t i : Nat} (h : faults.find i = none) :
    (log ++ [(t, i)]).filter (fun p => (faults.find p.2).isNone) =
      log.filter (fun p => (faults.find p.2).isNone) ++ [(t, i)] := by
  rw [List.filter_append, List.filter_cons_of_pos (by rw [h]; rfl), List.filter_nil]

/-- A turn that may meet a fault is a turn of the operation that fails where the faults are. -/
theorem faultyShardStep_strip (m : Machine) (t i : Nat) (counter : ProgressCounter) :
    faultyShardStep op inputs numThreads faults (strip inputs faults m) t i counter =
      (shardStep (attemptAt op inputs faults) (indices inputs) numThreads m t i counter).map (strip inputs faults) := by
  rw [faultyShardStep, shardStep, shardStep, shardRange_indices]
  by_cases hi : i < (shardRange inputs numThreads t).2
  · have hn := hi.trans_le (shardRange_snd_le inputs t)
    rw [if_pos hi, if_pos hi, if_pos hi, getElem?_indices inputs hn, List.getElem?_eq_getElem hn]
    dsimp only [Option.bind_eq_bind, Option.bind_some]
    rw [attemptAt_replicate, attempt]
    cases hfault : faults.find i with
    | some e =>
      exact congrArg some (strip_log_fault faults m hfault counter).symm
    | none =>
      rw [List.getD_eq_getElem _ _ hn]
      dsimp only
      cases op inputs[i] with
      | error e =>
        simp only [strip, finishShard, filter_log faults hfault, Option.pure_def, Option.map_some]
      | ok output =>
        simp only [strip, filter_log faults hfault, Option.pure_def, Option.map_some]
  · rw [if_neg hi, if_neg hi, if_neg hi]
    rfl

@[simp] theorem strip_caller (m : Machine) : (strip inputs faults m).caller = m.caller := rfl
@[simp] theorem strip_shards (m : Machine) : (strip inputs faults m).shards = m.shards := rfl

theorem faultyStep_strip (m : Machine) (choice : Choice) :
    faultyStep op inputs numThreads faults (strip inputs faults m) choice =
      (step (attemptAt op inputs faults) (indices inputs) numThreads m choice).map (strip inputs faults) := by
  cases choice with
  | spawnFails =>
    simp only [faultyStep, step, strip_caller]
    cases m.caller with
    | spawning k => dsimp only; split <;> rfl
    | running shards => rfl
    | returned status => rfl
  | caller =>
    simp only [faultyStep, step, strip_caller, strip_shards]
    cases m.caller with
    | spawning k =>
      dsimp only
      split
      · simp only [startShard, shardRange_indices, Option.map_some]
        rfl
      · rfl
    | running shards =>
      cases shards with
      | nil =>
        rw [apply_ite (Option.map (strip inputs faults))]
        rfl
      | cons t rest =>
        dsimp only
        cases m.shards t with
        | notStarted =>
          simp only [startShard, shardRange_indices, Option.map_some]
          rfl
        | running i counter => exact faultyShardStep_strip faults m t i counter
        | finished => rfl
    | returned status => rfl
  | worker t =>
    simp only [faultyStep, step]
    by_cases ht : 1 ≤ t ∧ t < m.nextShard
    · have ht' : 1 ≤ t ∧ t < (strip inputs faults m).nextShard := ht
      rw [if_pos ht', if_pos ht, strip_shards]
      cases m.shards t with
      | notStarted => rfl
      | running i counter => exact faultyShardStep_strip faults m t i counter
      | finished => rfl
    · have ht' : ¬ (1 ≤ t ∧ t < (strip inputs faults m).nextShard) := ht
      rw [if_neg ht', if_neg ht]
      rfl

theorem faultyRun_strip (m : Machine) (choices : List Choice) :
    faultyRun op inputs numThreads faults (strip inputs faults m) choices =
      (run (attemptAt op inputs faults) (indices inputs) numThreads m choices).map (strip inputs faults) := by
  induction choices generalizing m with
  | nil => rfl
  | cons choice choices ih =>
    rw [faultyRun, run, faultyStep_strip]
    cases step (attemptAt op inputs faults) (indices inputs) numThreads m choice with
    | none => rfl
    | some m' => exact ih m'

end Square

section Attempted
variable {op : ElementOp} {inputs : List Bytes} {numThreads : Nat} {faults : Faults inputs.length numThreads}

theorem attempt_eq_ok_iff {i : Nat} {output : Bytes} :
    attempt op inputs faults i = .ok output ↔ faults.find i = none ∧ op (inputs.getD i []) = .ok output := by
  rw [attempt]
  cases faults.find i <;> simp

theorem mapM_of_attempts {outputs : List Bytes}
    (h : (List.range inputs.length).mapM (attempt op inputs faults) = .ok outputs) : inputs.mapM op = .ok outputs := by
  obtain ⟨hlength, hget⟩ := List.forall₂_iff_get.mp (Traversal.mapM_eq_ok_iff.mp h)
  rw [List.length_range] at hlength
  apply Traversal.mapM_eq_ok_iff.mpr
  apply List.forall₂_iff_get.mpr
  refine ⟨hlength, fun i hi hi' => ?_⟩
  have hattempt := hget i (by rwa [List.length_range]) hi'
  rw [List.get_eq_getElem, List.getElem_range] at hattempt
  have hop := (attempt_eq_ok_iff.mp hattempt).2
  rw [List.getD_eq_getElem _ _ hi] at hop
  exact hop

/-- An error is the operation's, or one that a fault ends in. -/
theorem error_of_attempts {e : Error}
    (h : (List.range inputs.length).mapM (attempt op inputs faults) = .error e) :
    (∃ input ∈ inputs, op input = .error e) ∨ e = shardFailed ∨
      ∃ t, 0 < t ∧ t < numThreads ∧ faults.find (cut inputs.length numThreads t) = some e := by
  have htransformed := mapM_transformed (attemptAt op inputs faults) (indices inputs)
  rw [mapM_attemptAt, h] at htransformed
  cases htransformed with
  | error i hi hfails _ =>
    rw [length_indices] at hi
    have hindex := getElem?_indices inputs hi
    rw [List.getElem?_eq_getElem (by rwa [length_indices])] at hindex
    rw [Option.some.inj hindex, attemptAt_replicate, attempt] at hfails
    cases hfault : faults.find i with
    | none =>
      rw [hfault, List.getD_eq_getElem _ _ hi] at hfails
      exact Or.inl ⟨inputs[i], List.getElem_mem hi, hfails⟩
    | some e' =>
      rw [hfault] at hfails
      cases hfails
      rcases faults.allowed i e hfault with hfailed | ⟨t, hpos, ht, rfl⟩
      · exact Or.inr (Or.inl hfailed)
      · exact Or.inr (Or.inr ⟨t, hpos, ht, hfault⟩)

/-- A state that a run with faults reaches is, but for its log, one that the run without them does. -/
theorem reached_of_faultyRun (hpos : 0 < numThreads) {choices : List Choice} {m : Machine}
    (hrun : faultyRun op inputs numThreads faults (initial inputs) choices = some m) :
    ∃ m₀, m = strip inputs faults m₀ ∧ Reached numThreads (attemptAt op inputs faults) (indices inputs) m₀ ∧
      run (attemptAt op inputs faults) (indices inputs) numThreads (initial (indices inputs)) choices = some m₀ := by
  have hinitial : initial inputs = strip inputs faults (initial (indices inputs)) := by
    rw [initial, initial, length_indices]
    rfl
  rw [hinitial, faultyRun_strip] at hrun
  obtain ⟨m₀, hm₀, rfl⟩ := Option.map_eq_some_iff.mp hrun
  exact ⟨m₀, rfl, (Reached.initial hpos).run hm₀, hm₀⟩

end Attempted

/-- Faults are contained. Whatever fails and in whatever order the threads take their turns,
the call goes on to return once every shard has been run; what it returns is what a loop over
the indices would, in which each gives its fault or else its output. So no output is lost or
misplaced, and no error is made up. -/
theorem faults_are_contained {op : ElementOp} {inputs : List Bytes} {numThreads : Nat}
    (faults : Faults inputs.length numThreads) (hpos : 0 < numThreads) {choices : List Choice} {m : Machine}
    (hrun : faultyRun op inputs numThreads faults (initial inputs) choices = some m) :
    (∃ more m' status, faultyRun op inputs numThreads faults m more = some m' ∧ m'.caller = .returned status) ∧
    ∀ status, m.caller = .returned status →
      m.started.Perm (List.range numThreads) ∧
      (m.pass inputs status).result = (List.range inputs.length).mapM (attempt op inputs faults) ∧
      match (m.pass inputs status).result with
      | .ok outputs => inputs.mapM op = .ok outputs
      | .error e => (∃ input ∈ inputs, op input = .error e) ∨ e = shardFailed ∨
          ∃ t, 0 < t ∧ t < numThreads ∧ faults.find (cut inputs.length numThreads t) = some e := by
  obtain ⟨m₀, rfl, hreached, -⟩ := reached_of_faultyRun hpos hrun
  constructor
  · obtain ⟨more, m', status, hmore, hreturned⟩ := exists_return hreached
    refine ⟨more, strip inputs faults m', status, ?_, hreturned⟩
    rw [faultyRun_strip, hmore]
    rfl
  · intro status hreturned
    have htransformed := hreached.transformed hreturned
    have hresult := htransformed.unique (mapM_transformed _ _)
    have hpass : ((strip inputs faults m₀).pass inputs status).result = (m₀.pass (indices inputs) status).result := rfl
    rw [mapM_attemptAt, ← hpass] at hresult
    refine ⟨hreached.started_perm hreturned, hresult, ?_⟩
    rw [hresult]
    split <;> rename_i hattempts
    · exact mapM_of_attempts hattempts
    · exact error_of_attempts hattempts

/-- Two shards of three inputs, and no cipher for the second. -/
theorem faults_are_contained_no_clone :
    let error : Error := ⟨.internal, "no group"⟩
    let faults : Faults 3 2 := ⟨fun i => if i = 2 then some error else none, fun i e h => by
      rw [Option.ite_none_right_eq_some] at h
      exact Or.inr ⟨1, by decide, by decide, h.1⟩⟩
    let op : ElementOp := fun x => .ok (x ++ x)
    ∃ m status, faultyRun op [[1], [2], [3]] 2 faults (initial [[1], [2], [3]])
        [.caller, .caller, .worker 1, .caller, .caller, .caller, .caller, .caller, .caller] = some m ∧
      (m.pass [[1], [2], [3]] status).result = .error error := by
  intro error faults op
  have hcaller : (faultyRun op [[1], [2], [3]] 2 faults (initial [[1], [2], [3]])
      [.caller, .caller, .worker 1, .caller, .caller, .caller, .caller, .caller, .caller]).map Machine.caller =
        some (.returned (.error error)) := by decide +kernel
  obtain ⟨m, hrun, hreturned⟩ := Option.map_eq_some_iff.mp hcaller
  have hcontained := @faults_are_contained op [[1], [2], [3]] 2 faults (by decide) _ m hrun
  exact ⟨m, _, hrun, (hcontained.2 _ hreturned).2.1⟩

end ParallelEc

end PrivateSetIntersection
