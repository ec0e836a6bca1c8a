import PrivateSetIntersection.Status

/-! `parallel_ec.cpp` and `progress.h`: one cipher operation applied to every
element of a list, on one thread or in shards. The sharded call is a machine whose
choices are the interleaving; an operation, the write of its result and the `Increment`
after it are one step, so an element counts as processed from its `Increment` on. -/
namespace PrivateSetIntersection
open Library

/-- An operation of the cipher; a clone made from the key computes the same one. -/
abbrev ElementOp := Bytes → Except Error Bytes

/-- A counter of one thread: what it holds back, and what it has added to the slot. -/
structure ProgressCounter where
  pending : Nat := 0
  published : Nat := 0
  deriving DecidableEq, Repr

namespace ProgressCounter

def kBatch : Nat := 256

def flush (counter : ProgressCounter) : ProgressCounter :=
  { pending := 0, published := counter.published + counter.pending }

def increment (counter : ProgressCounter) : ProgressCounter :=
  let counter := { counter with pending := counter.pending + 1 }
  if kBatch ≤ counter.pending then counter.flush else counter

end ProgressCounter

/-- What a pass over a list returns and does: the outputs or the error, the elements
the operation was applied to in that order, and the amount added to the progress slot. -/
structure Pass where
  result : Except Error (List Bytes)
  calls : List Bytes
  published : Nat

/-- The single-threaded loop, in `TransformElements` and in every build without threads. -/
def elementLoop (op : ElementOp) :
    List Bytes → (outputs calls : List Bytes) → ProgressCounter → Pass
  | [], outputs, calls, counter => ⟨.ok outputs, calls, counter.flush.published⟩
  | input :: inputs, outputs, calls, counter =>
    match op input with
    | .error e => ⟨.error e, calls ++ [input], counter.flush.published⟩
    | .ok output =>
      elementLoop op inputs (outputs ++ [output]) (calls ++ [input]) counter.increment

namespace ParallelEc

def kMinInputsForThreads : Nat := 1024
def kMinInputsPerThread : Nat := 512

def chooseThreadCount (hardware n : Nat) : Nat :=
  if n < kMinInputsForThreads then 1
  else
    let hw := if hardware = 0 then 1 else hardware
    let byWork := n / kMinInputsPerThread
    max 1 (min hw byWork)

/-- The loop filling `ranges`: shards `t, t + 1, ...`, as many as the first argument. -/
def rangesFrom (base remainder : Nat) : Nat → (t start : Nat) → List (Nat × Nat)
  | 0, _, _ => []
  | left + 1, t, start =>
    let len := base + if t < remainder then 1 else 0
    (start, start + len) :: rangesFrom base remainder left (t + 1) (start + len)

def ranges (n numThreads : Nat) : List (Nat × Nat) :=
  rangesFrom (n / numThreads) (n % numThreads) numThreads 0 0

inductive ShardState where
  | notStarted
  | running (i : Nat) (counter : ProgressCounter)
  | finished
  deriving DecidableEq, Repr

/-- Where the calling thread stands: in the loop creating threads, running the shards
it owns, or past the join. -/
inductive Caller where
  | spawning (nextShard : Nat)
  | running (shards : List Nat)
  | returned (status : Status)
  deriving DecidableEq, Repr

structure Machine where
  caller : Caller := .spawning 1
  /-- shards `1 .. nextShard - 1` have a thread -/
  nextShard : Nat := 1
  shards : Nat → ShardState := fun _ => .notStarted
  shardStatus : Nat → Status := fun _ => .ok
  outputs : List Bytes
  published : Nat := 0
  /-- every call of `run_shard`, in order -/
  started : List Nat := []
  /-- the shard and the index of every application of the operation, in order -/
  processed : List (Nat × Nat) := []

/-- Which thread takes the next step; creating a thread may fail instead. -/
inductive Choice where
  | caller
  | spawnFails
  | worker (t : Nat)
  deriving DecidableEq, Repr

section Step
variable (op : ElementOp) (inputs : List Bytes) (numThreads : Nat)

def shardRange (t : Nat) : Nat × Nat := (ranges inputs.length numThreads).getD t (0, 0)

def startShard (m : Machine) (t : Nat) : Machine :=
  { m with
    shards := Function.update m.shards t (.running (shardRange inputs numThreads t).1 {})
    started := m.started ++ [t] }

def finishShard (m : Machine) (t : Nat) (counter : ProgressCounter) (status : Status) : Machine :=
  { m with
    shards := Function.update m.shards t .finished
    shardStatus := Function.update m.shardStatus t status
    published := m.published + counter.pending }

/-- One turn of the loop of `run_shard(t)`, at index `i`. -/
def shardStep (m : Machine) (t i : Nat) (counter : ProgressCounter) : Option Machine :=
  if i < (shardRange inputs numThreads t).2 then do
    let input ← inputs[i]?
    let m := { m with processed := m.processed ++ [(t, i)] }
    match op input with
    | .error e => return finishShard m t counter (.error e)
    | .ok output =>
      let next := counter.increment
      return { m with
        shards := Function.update m.shards t (.running (i + 1) next)
        outputs := m.outputs.set i output
        published := m.published + (next.published - counter.published) }
  else return finishShard m t counter (m.shardStatus t)

def firstError (m : Machine) : Status :=
  ((List.range numThreads).map m.shardStatus).find? (· ≠ .ok) |>.getD .ok

/-- The next state under a choice; `none` is a thread that cannot take a step. -/
def step (m : Machine) : Choice → Option Machine
  | .spawnFails =>
    match m.caller with
    | .spawning t =>
      if t < numThreads then
        some { m with caller := .running (0 :: List.range' t (numThreads - t)) }
      else none
    | _ => none
  | .caller =>
    match m.caller with
    | .spawning t =>
      if t < numThreads then
        let m := startShard inputs numThreads m t
        some { m with caller := .spawning (t + 1), nextShard := t + 1 }
      else some { m with caller := .running [0] }
    | .running (t :: rest) =>
      match m.shards t with
      | .notStarted => some (startShard inputs numThreads m t)
      | .running i counter => shardStep op inputs numThreads m t i counter
      | .finished => some { m with caller := .running rest }
    | .running [] =>
      if (List.range' 1 (m.nextShard - 1)).all (fun t => decide (m.shards t = .finished)) then
        some { m with caller := .returned (firstError numThreads m) }
      else none
    | .returned _ => none
  | .worker t =>
    if 1 ≤ t ∧ t < m.nextShard then
      match m.shards t with
      | .running i counter => shardStep op inputs numThreads m t i counter
      | _ => none
    else none

/-- An interleaving is the list of its choices. -/
def run (m : Machine) : List Choice → Option Machine
  | [] => some m
  | choice :: choices => do run (← step op inputs numThreads m choice) choices

end Step

/-- `outputs->assign(n, std::string())`, before any shard. -/
def initial (inputs : List Bytes) : Machine := { outputs := List.replicate inputs.length [] }

/-- What the caller of `TransformElements` sees of a machine that has returned. -/
def Machine.pass (inputs : List Bytes) (m : Machine) (status : Status) : Pass where
  result := match status with
    | .ok => .ok m.outputs
    | .error e => .error e
  calls := m.processed.map (fun p => inputs.getD p.2 [])
  published := m.published

/-- `TransformElements` may return the pass `p`, under some interleaving. -/
def TransformElements (hardware : Nat) (op : ElementOp) (inputs : List Bytes) (p : Pass) : Prop :=
  if inputs = [] then p = ⟨.ok [], [], 0⟩
  else
    let numThreads := chooseThreadCount hardware inputs.length
    if numThreads ≤ 1 then p = elementLoop op inputs [] [] {}
    else ∃ choices m status, run op inputs numThreads (initial inputs) choices = some m ∧
      m.caller = .returned status ∧ p = m.pass inputs status

/-- A host for the threaded build: the pass that a call makes on it at some moment, each one
made by some interleaving. Equal calls at two moments may be given different ones. -/
structure Threads where
  hardware : Nat
  pass : Nat → ElementOp → List Bytes → Pass
  returns : ∀ moment op inputs, TransformElements hardware op inputs (pass moment op inputs)

end ParallelEc

inductive Build where
  | sequential
  | threaded (threads : ParallelEc.Threads)

/-- `EncryptElements`, `ReEncryptElements` and `DecryptElements`, or the loop that stands in
their place. A call of a party is given its own build; the batches of a match share one, each
at its moment. -/
def Build.transformElements : Build → Nat → ElementOp → List Bytes → Pass
  | .sequential, _, op, inputs => elementLoop op inputs [] [] {}
  | .threaded threads, moment, op, inputs => threads.pass moment op inputs

end PrivateSetIntersection
