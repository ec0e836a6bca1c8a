import PrivateSetIntersection.Streaming.CallOrder
import PrivateSetIntersection.Streaming.Matching

/-! `match.ts` over the two builds it can be given. The WASM binding copies an array into
linear memory a window at a time; the Node-API addon reads it where it is. -/
namespace PrivateSetIntersection.Javascript
open Library Automaton

def kWindowBytes : Nat := 1 <<< 20

/-- The loop of `ForEachWindow`, over the bytes from `at` on. -/
def windowLoop {σ : Type} (consume : σ → Bytes → Status × σ) (windowSize : Nat) (hsize : 0 < windowSize)
    (s : σ) (bytes : Bytes) : Status × σ :=
  if _hbytes : bytes = [] then (.ok, s)
  else
    match consume s (bytes.take windowSize) with
    | (.error e, s) => (.error e, s)
    | (.ok, s) => windowLoop consume windowSize hsize s (bytes.drop windowSize)
termination_by bytes.length
decreasing_by
  have hlength : 0 < bytes.length := List.length_pos_of_ne_nil ‹_›
  rw [List.length_drop]
  omega

def ForEachWindow {σ : Type} (consume : σ → Bytes → Status × σ) (s : σ) (bytes : Bytes) : Status × σ :=
  if hlength : bytes.length = 0 then consume s []
  else windowLoop consume (min bytes.length kWindowBytes)
    (Nat.lt_min.mpr ⟨Nat.pos_of_ne_zero hlength, by decide⟩) s bytes

/-- What `match.ts` runs on. The WASM build has no threads. -/
inductive Backend where
  | wasm
  | native (build : Build)

namespace Backend

def build : Backend → Build
  | .wasm => .sequential
  | .native build => build

/-- An array on its way to the C++ object. -/
def handOver {σ : Type} (backend : Backend) (consume : σ → Bytes → Status × σ) (s : σ) (bytes : Bytes) :
    Status × σ :=
  match backend with
  | .wasm => ForEachWindow consume s bytes
  | .native _ => consume s bytes

end Backend

structure MatchResult where
  intersectionSize : Nat
  decryptedCount : Nat
  associationTable : Option (List Nat × List Nat)
  deriving DecidableEq, Repr

inductive Method where
  | delete
  | addSetupBytes (bytes : Bytes)
  | sealSetup
  | matchResponsePiece (bytes : Bytes)
  | finish

inductive Returned where
  | undefined
  | result (value : MatchResult)
  deriving DecidableEq, Repr

def ERROR_INSTANCE_DELETED : String := "Instance was deleted"

/-- The object: the instance it wraps, until it is deleted. No progress slot is passed on. -/
structure Match where
  live : Option PsiMatch
  surroundings : Surroundings := {}

namespace Match

/-- `MatchConstructor`, on an instance fresh from `CreateMatch`. -/
def create (reveal : Bool) : Match := { live := some (.fresh reveal) }

/-- `check`: a status is thrown as its message. -/
def check : Status → Except String Returned
  | .ok => .ok .undefined
  | .error e => .error e.message

def checked (answer : Status × PsiMatch × Surroundings) : Except String Returned × Match :=
  (check answer.1, ⟨some answer.2.1, answer.2.2⟩)

/-- Both bindings give the indices only of a match that reveals the intersection. -/
def resultOf (instance' : PsiMatch) (finished : PsiMatchResult) : MatchResult where
  intersectionSize := finished.intersectionSize
  decryptedCount := finished.decryptedCount
  associationTable :=
    if instance'.revealIntersection then some (finished.responseIndices, finished.setupIndices) else none

section Calls
variable (backend : Backend) (decrypt : ElementOp)

def call (object : Match) (method : Method) : Except String Returned × Match :=
  match object.live with
  | none => (.error ERROR_INSTANCE_DELETED, object)
  | some m =>
    let consume (make : Bytes → PsiMatch.Call) (s : PsiMatch × Surroundings) (window : Bytes) :=
      PsiMatch.call backend.build decrypt s (make window)
    match method with
    | .delete => (.ok .undefined, { object with live := none })
    | .addSetupBytes bytes =>
      checked (backend.handOver (consume .addSetupBytes) (m, object.surroundings) bytes)
    | .sealSetup => checked (PsiMatch.call backend.build decrypt (m, object.surroundings) .sealSetup)
    | .matchResponsePiece bytes =>
      checked (backend.handOver (consume .matchResponsePiece) (m, object.surroundings) bytes)
    | .finish =>
      match m.finish with
      | (.ok finished, m) => (.ok (.result (resultOf m finished)), { object with live := some m })
      | (.error e, m) => (.error e.message, { object with live := some m })

def calls (object : Match) : List Method → List (Except String Returned) × Match
  | [] => ([], object)
  | method :: methods =>
    let (outcome, object) := call backend decrypt object method
    let (outcomes, object) := calls object methods
    (outcome :: outcomes, object)

theorem calls_cons (object : Match) (method : Method) (methods : List Method) :
    calls backend decrypt object (method :: methods) =
      ((call backend decrypt object method).1 ::
          (calls backend decrypt (call backend decrypt object method).2 methods).1,
        (calls backend decrypt (call backend decrypt object method).2 methods).2) := rfl

end Calls

end Match

section Windows

/-- The windows of at most `windowSize` bytes that the loop takes. -/
def windowsFrom (windowSize : Nat) (hsize : 0 < windowSize) (bytes : Bytes) : List Bytes :=
  if _hbytes : bytes = [] then []
  else bytes.take windowSize :: windowsFrom windowSize hsize (bytes.drop windowSize)
termination_by bytes.length
decreasing_by
  have hlength : 0 < bytes.length := List.length_pos_of_ne_nil ‹_›
  rw [List.length_drop]
  omega

theorem flatten_windowsFrom (windowSize : Nat) (hsize : 0 < windowSize) (bytes : Bytes) :
    (windowsFrom windowSize hsize bytes).flatten = bytes := by
  fun_induction windowsFrom windowSize hsize bytes with
  | case1 => rfl
  | case2 bytes hbytes ih => rw [List.flatten_cons, ih, List.take_append_drop]

abbrev reads {σ : Type} (consume : σ → Bytes → Status × σ) (s : σ) (window : Bytes) : Except Error σ :=
  accepted (consume s window)

theorem windowLoop_reads {σ : Type} (consume : σ → Bytes → Status × σ) (windowSize : Nat)
    (hsize : 0 < windowSize) (s : σ) (bytes : Bytes) :
    accepted (windowLoop consume windowSize hsize s bytes) =
      run (reads consume) s (windowsFrom windowSize hsize bytes) := by
  fun_induction windowLoop consume windowSize hsize s bytes with
  | case1 s =>
    rw [windowsFrom, dif_pos rfl]
    rfl
  | case2 s bytes hbytes e s' hconsume =>
    rw [windowsFrom, dif_neg hbytes, run_cons_error _ (e := e) (by rw [reads, hconsume]; rfl)]
    rfl
  | case3 s bytes hbytes s' hconsume ih =>
    rw [windowsFrom, dif_neg hbytes, run_cons_ok _ (t := s') (by rw [reads, hconsume]; rfl), ih]

namespace Backend

def windows (backend : Backend) (bytes : Bytes) : List Bytes :=
  match backend with
  | .wasm =>
    if hlength : bytes.length = 0 then [[]]
    else windowsFrom (min bytes.length kWindowBytes)
      (Nat.lt_min.mpr ⟨Nat.pos_of_ne_zero hlength, by decide⟩) bytes
  | .native _ => [bytes]

theorem flatten_windows (backend : Backend) (bytes : Bytes) : (backend.windows bytes).flatten = bytes := by
  cases backend with
  | wasm =>
    rw [windows]
    split <;> rename_i hlength
    · rw [List.eq_nil_of_length_eq_zero hlength]
      rfl
    · exact flatten_windowsFrom _ _ bytes
  | native build => exact List.append_nil bytes

/-- An empty array is a window as well: every method's checks are run. -/
theorem windows_ne_nil (backend : Backend) (bytes : Bytes) : backend.windows bytes ≠ [] := by
  cases backend with
  | wasm =>
    rw [windows]
    split <;> rename_i hlength
    · exact List.cons_ne_nil _ _
    · rw [windowsFrom, dif_neg (fun h => hlength (congrArg List.length h))]
      exact List.cons_ne_nil _ _
  | native build => exact List.cons_ne_nil _ _

/-- Handing an array over is reading its windows up to the first refusal. -/
theorem handOver_reads {σ : Type} (backend : Backend) (consume : σ → Bytes → Status × σ) (s : σ)
    (bytes : Bytes) :
    accepted (backend.handOver consume s bytes) = run (reads consume) s (backend.windows bytes) := by
  cases backend with
  | wasm =>
    rw [handOver, windows, ForEachWindow]
    split
    · rw [run_singleton]
    · exact windowLoop_reads consume _ _ s bytes
  | native build => rw [handOver, windows, run_singleton]

end Backend

/-- What holds of the state a window is refused in holds of the state the array is. -/
theorem windowLoop_refused {σ : Type} {consume : σ → Bytes → Status × σ} {P : Error → σ → Prop}
    (hrefused : ∀ s window e s', consume s window = (.error e, s') → P e s') {windowSize : Nat}
    {hsize : 0 < windowSize} {s s' : σ} {bytes : Bytes} {e : Error}
    (h : windowLoop consume windowSize hsize s bytes = (.error e, s')) : P e s' := by
  fun_induction windowLoop consume windowSize hsize s bytes with
  | case1 s => cases h
  | case2 s bytes hbytes e' t hconsume =>
    cases h
    exact hrefused s _ e s' hconsume
  | case3 s bytes hbytes t hconsume ih => exact ih h

theorem Backend.handOver_refused {σ : Type} {backend : Backend} {consume : σ → Bytes → Status × σ}
    {P : Error → σ → Prop} (hrefused : ∀ s window e s', consume s window = (.error e, s') → P e s')
    {s s' : σ} {bytes : Bytes} {e : Error} (h : backend.handOver consume s bytes = (.error e, s')) :
    P e s' := by
  cases backend with
  | wasm =>
    rw [handOver, ForEachWindow] at h
    split at h
    · exact hrefused s [] e s' h
    · exact windowLoop_refused hrefused h
  | native build => exact hrefused s bytes e s' h

end Windows

section Agreement
open PsiMatch
variable (backend backend' : Backend) {decrypt : ElementOp} {reveal : Bool}

/-- Two instances that have refused, each with its own error. -/
def Parted (e e' : Error) (s s' : PsiMatch × Surroundings) : Prop :=
  s.1.failure = .error e ∧ s'.1.failure = .error e'

structure InPhase (phase : Phase) (m : PsiMatch) : Prop where
  failure : m.failure = .ok
  phase : m.phase = phase

/-- Two instances that have answered alike: their setups stand at the same byte, or their
responses do, or both have finished, or both have refused with one error. -/
inductive Alike (decrypt : ElementOp) (reveal : Bool) (s s' : PsiMatch × Surroundings) : Prop
  | setup {bytes : Bytes} {framing : Framing} {es : List Bytes}
      (hread : run (frameByte collect) (.tag, []) bytes = .ok (framing, es))
      (h : Tracks reveal s.1 framing es) (h' : Tracks reveal s'.1 framing es)
  | matching {setup : List Bytes} {state : Reading × List Bytes} (hascending : setup.Pairwise (· < ·))
      (hcount : setup.length ≤ 2 ^ 32) (h : Between decrypt reveal setup s state)
      (h' : Between decrypt reveal setup s' state)
  | finished (h : InPhase .finished s.1) (h' : InPhase .finished s'.1)
  | refused (e : Error) (h : Parted e e s s')

abbrev consume (build : Build) (decrypt : ElementOp) (make : Bytes → PsiMatch.Call) (s : PsiMatch × Surroundings)
    (window : Bytes) : Status × PsiMatch × Surroundings :=
  PsiMatch.call build decrypt s (make window)

/-- A refused array leaves the instance refused, with the same error. -/
theorem handOver_failure {make : Bytes → PsiMatch.Call} {s : PsiMatch × Surroundings} {bytes : Bytes}
    {e : Error} (h : (backend.handOver (consume backend.build decrypt make) s bytes).1 = .error e) :
    (backend.handOver (consume backend.build decrypt make) s bytes).2.1.failure = .error e :=
  Backend.handOver_refused (P := fun e s' => s'.1.failure = .error e)
    (fun _ _ _ _ hcall => call_failure hcall) (Prod.ext h rfl)

theorem accepted_eq_ok {σ : Type} {answer : Status × σ} {s : σ} (h : accepted answer = .ok s) :
    answer = (.ok, s) := by
  obtain ⟨_ | e, t⟩ := answer
  · cases h
    rfl
  · cases h

theorem accepted_eq_error_iff {σ : Type} {answer : Status × σ} {e : Error} :
    accepted answer = .error e ↔ answer.1 = .error e := by
  obtain ⟨_ | e', t⟩ := answer
  · exact iff_of_false (fun h => by cases h) (fun h => by cases h)
  · rw [accepted, Except.error.injEq, Status.error.injEq]

/-- An array of which any window would be refused. -/
theorem handOver_out_of_order {make : Bytes → PsiMatch.Call} {s : PsiMatch × Surroundings} {e : Error}
    (h : ∀ window, (consume backend.build decrypt make s window).1 = .error e) (bytes : Bytes) :
    let answer := backend.handOver (consume backend.build decrypt make) s bytes
    answer.1 = .error e ∧ answer.2.1.failure = .error e := by
  intro answer
  have hrefused : answer.1 = .error e := by
    rw [← accepted_eq_error_iff, Backend.handOver_reads]
    cases hwindows : backend.windows bytes with
    | nil => exact absurd hwindows (backend.windows_ne_nil bytes)
    | cons window windows =>
      exact run_cons_error _ (accepted_eq_error_iff.mpr (h window)) windows
  exact ⟨hrefused, handOver_failure backend hrefused⟩

theorem call_refused (build : Build) {s : PsiMatch × Surroundings} {e : Error} (h : s.1.failure = .error e)
    (c : PsiMatch.Call) :
    (PsiMatch.call build decrypt s c).1 = .error e ∧ (PsiMatch.call build decrypt s c).2.1.failure = .error e := by
  rw [call_of_failure h]
  exact ⟨rfl, h⟩

theorem handOver_setup {s : PsiMatch × Surroundings} {framing : Framing} {es : List Bytes}
    (h : Tracks reveal s.1 framing es) (bytes : Bytes) :
    Agree (fun s state => Tracks reveal s.1 state.1 state.2)
      (accepted (backend.handOver (consume backend.build decrypt .addSetupBytes) s bytes))
      (run (frameByte collect) (framing, es) bytes) := by
  rw [Backend.handOver_reads, ← backend.flatten_windows bytes, ← run_windows,
    backend.flatten_windows bytes]
  refine Agree.run (R := fun (s : PsiMatch × Surroundings) (state : Framing × List Bytes) =>
    Tracks reveal s.1 state.1 state.2) ?_ h (backend.windows bytes)
  intro s state window h
  have hanswer := addSetupBytes_tracks h window
  rw [reads, consume, PsiMatch.call]
  generalize s.1.addSetupBytes window = answer at hanswer
  generalize run (frameByte collect) state window = read at hanswer
  cases hanswer with
  | ok h => exact .ok h
  | error => exact .error _

/-- A response read over the windows of an array is the plain reading of the array. -/
theorem handOver_response {setup : List Bytes} (hascending : setup.Pairwise (· < ·))
    (hcount : setup.length ≤ 2 ^ 32) {s : PsiMatch × Surroundings} {state : Reading × List Bytes}
    (h : Between decrypt reveal setup s state) (bytes : Bytes) :
    Refines (Between decrypt reveal setup) (fun state => Undecryptable decrypt state.2)
      (accepted (backend.handOver (consume backend.build decrypt .matchResponsePiece) s bytes))
      (run (readByte takeEntry) state bytes) := by
  rw [Backend.handOver_reads, ← backend.flatten_windows bytes, ← run_windows,
    backend.flatten_windows bytes]
  refine Refines.run (f := reads (consume backend.build decrypt .matchResponsePiece))
    (matchResponsePiece_matches backend.build hascending hcount) ?_ h (backend.windows bytes)
  intro state piece next hdoomed hnext
  exact run_preserves _ undecryptable_lasts hdoomed hnext

/-- All that was handed over has been decrypted between two calls. -/
theorem Between.decrypts {setup : List Bytes} {s : PsiMatch × Surroundings} {state : Reading × List Bytes}
    (h : Between decrypt reveal setup s state) : ¬ Undecryptable decrypt state.2 := by
  obtain ⟨-, hmatching, hbatch⟩ := h
  obtain ⟨done, plains, hentries, hdone, -⟩ := hmatching.progress
  rw [hbatch, List.append_nil] at hentries
  rintro ⟨e, he⟩
  rw [hentries, hdone] at he
  cases he

theorem finish_revealIntersection (m : PsiMatch) : m.finish.2.revealIntersection = m.revealIntersection := by
  rw [PsiMatch.finish]
  split
  · rfl
  · split_ifs <;> rfl

end Agreement

namespace Match

section Histories
variable (backend backend' : Backend) {decrypt : ElementOp} {reveal : Bool}

/-- Two objects that have answered alike, and may have been deleted. -/
inductive InStep (decrypt : ElementOp) (reveal : Bool) (o o' : Match) : Prop
  | deleted (h : o.live = none) (h' : o'.live = none)
  | live {m m' : PsiMatch} (h : o.live = some m) (h' : o'.live = some m')
      (halike : Alike decrypt reveal (m, o.surroundings) (m', o'.surroundings))

end Histories

end Match

end PrivateSetIntersection.Javascript
