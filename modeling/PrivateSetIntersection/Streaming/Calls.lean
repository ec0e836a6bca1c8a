import PrivateSetIntersection.Streaming.Grammar
import PrivateSetIntersection.Streaming.Answered

/-! Sequences of calls on one `PsiMatch`, and what the setup phase accepts. -/
namespace PrivateSetIntersection
open Library Automaton

namespace PsiMatch

inductive Call where
  | addSetupBytes (window : Bytes)
  | sealSetup
  | matchResponsePiece (piece : Bytes)
  | finish

section Calls
variable (build : Build) (decrypt : ElementOp)

def call (s : PsiMatch × Surroundings) : Call → Status × PsiMatch × Surroundings
  | .addSetupBytes window =>
    let (status, m) := s.1.addSetupBytes window
    (status, m, s.2)
  | .sealSetup =>
    let (status, m) := s.1.sealSetup
    (status, m, s.2)
  | .matchResponsePiece piece => matchResponsePiece build decrypt s piece
  | .finish =>
    match s.1.finish with
    | (.ok _, m) => (.ok, m, s.2)
    | (.error e, m) => (.error e, m, s.2)

def calls (s : PsiMatch × Surroundings) : List Call → List Status × PsiMatch × Surroundings
  | [] => ([], s)
  | c :: cs =>
    let (status, s) := call build decrypt s c
    let (statuses, s) := calls s cs
    (status :: statuses, s)

theorem calls_cons (s : PsiMatch × Surroundings) (c : Call) (cs : List Call) :
    calls build decrypt s (c :: cs) =
      ((call build decrypt s c).1 :: (calls build decrypt (call build decrypt s c).2 cs).1,
        (calls build decrypt (call build decrypt s c).2 cs).2) := rfl

end Calls

section Failure

variable {build : Build} {decrypt : ElementOp}

/-- An object that has refused refuses every call with the same status, unchanged. -/
theorem call_of_failure {s : PsiMatch × Surroundings} {e : Error} (h : s.1.failure = .error e)
    (c : Call) : call build decrypt s c = (.error e, s) := by
  cases c with
  | addSetupBytes window => simp only [call, addSetupBytes, h]
  | sealSetup => simp only [call, sealSetup, h]
  | matchResponsePiece piece => simp only [call, matchResponsePiece, h]
  | finish => simp only [call, finish, h]

private theorem sealSetup_failure {m m' : PsiMatch} {e : Error}
    (h : m.sealSetup = (.error e, m')) : m'.failure = .error e := by
  rw [sealSetup] at h
  split at h
  · rename_i hfailure
    cases h
    exact hfailure
  · split at h
    · cases h
      rfl
    · split at h <;> cases h
      rfl

private theorem finish_failure {m m' : PsiMatch} {e : Error}
    (h : m.finish = (.error e, m')) : m'.failure = .error e := by
  rw [finish] at h
  split at h
  · rename_i hfailure
    cases h
    exact hfailure
  · split at h
    · cases h
      rfl
    · split at h
      · cases h
        rfl
      · split at h <;> cases h
        rfl

theorem call_failure {s s' : PsiMatch × Surroundings} {c : Call} {e : Error}
    (h : call build decrypt s c = (.error e, s')) : s'.1.failure = .error e := by
  cases hfailure : s.1.failure with
  | error e' =>
    rw [call_of_failure hfailure] at h
    cases h
    exact hfailure
  | ok =>
    cases c with
    | addSetupBytes window =>
      have hanswered := addSetupBytes_answered hfailure window
      simp only [call, Prod.mk.injEq] at h
      obtain ⟨hstatus, rfl⟩ := h
      exact hanswered.failure hstatus
    | sealSetup =>
      simp only [call, Prod.mk.injEq] at h
      obtain ⟨hstatus, rfl⟩ := h
      exact sealSetup_failure (Prod.ext hstatus rfl)
    | matchResponsePiece piece =>
      have hanswered := matchResponsePiece_answered build decrypt hfailure piece
      rw [call] at h
      rw [h] at hanswered
      exact hanswered.failure rfl
    | finish =>
      rw [call] at h
      split at h <;> cases h
      rename_i hfinish
      exact finish_failure hfinish

theorem calls_of_failure {s : PsiMatch × Surroundings} {e : Error} (h : s.1.failure = .error e)
    (cs : List Call) : calls build decrypt s cs = (List.replicate cs.length (.error e), s) := by
  induction cs with
  | nil => rfl
  | cons c cs ih => rw [calls_cons, call_of_failure h c, ih, List.length_cons, List.replicate_succ]

/-- After a refusal every later call of any kind returns the same status. -/
theorem calls_sticky (s : PsiMatch × Surroundings) (cs : List Call) :
    (calls build decrypt s cs).1.Pairwise (fun earlier later => earlier ≠ .ok → later = earlier) := by
  induction cs generalizing s with
  | nil => exact .nil
  | cons c cs ih =>
    rw [calls_cons]
    refine List.Pairwise.cons ?_ (ih _)
    intro later hlater hrefused
    rcases hcall : call build decrypt s c with ⟨_ | e, s'⟩
    · rw [hcall] at hrefused
      exact absurd rfl hrefused
    · rw [hcall, calls_of_failure (call_failure hcall)] at hlater
      exact List.eq_of_mem_replicate hlater

/-- All statuses are OK exactly if a run that stops at the first refusal goes through,
and both leave the same object. -/
theorem run_call_iff {s s' : PsiMatch × Surroundings} {cs : List Call} :
    run (fun s c => accepted (call build decrypt s c)) s cs = .ok s' ↔
      (∀ status ∈ (calls build decrypt s cs).1, status = .ok) ∧ (calls build decrypt s cs).2 = s' := by
  induction cs generalizing s with
  | nil => simp [calls]
  | cons c cs ih =>
    rw [calls_cons]
    rcases hcall : call build decrypt s c with ⟨_ | e, t⟩
    · have haccepted : accepted (call build decrypt s c) = .ok t := by rw [hcall, accepted]
      rw [run_cons_ok _ haccepted, ih]
      simp
    · have haccepted : accepted (call build decrypt s c) = .error e := by rw [hcall, accepted]
      rw [run_cons_error _ haccepted]
      simp

/-- A refused sequence of calls leaves an object that refuses. -/
theorem failure_of_not_all_ok {s : PsiMatch × Surroundings} {cs : List Call}
    (h : ¬ ∀ status ∈ (calls build decrypt s cs).1, status = .ok) :
    ∃ e, (calls build decrypt s cs).2.1.failure = .error e := by
  induction cs generalizing s with
  | nil => exact absurd (fun _ hmem => absurd hmem List.not_mem_nil) h
  | cons c cs ih =>
    rw [calls_cons] at h ⊢
    rcases hcall : call build decrypt s c with ⟨_ | e, s'⟩
    · rw [hcall] at h
      exact ih (by simpa using h)
    · rw [calls_of_failure (call_failure hcall)]
      exact ⟨e, call_failure hcall⟩

end Failure

section Setup
variable {reveal : Bool}

/-- `AddSetupBytes` over windows is the framing over their concatenation. -/
theorem addSetupBytes_windows {m : PsiMatch} {framing : Framing} {es : List Bytes}
    (h : Tracks reveal m framing es) (windows : List Bytes) :
    Agree (fun m state => Tracks reveal m state.1 state.2)
      (run (fun m window => accepted (m.addSetupBytes window)) m windows)
      (run (frameByte collect) (framing, es) windows.flatten) := by
  rw [← run_windows]
  refine Agree.run (R := fun m (state : Framing × List Bytes) => Tracks reveal m state.1 state.2)
    ?_ h windows
  intro m state window h
  have hanswer := addSetupBytes_tracks h window
  generalize m.addSetupBytes window = answer at hanswer
  generalize run (frameByte collect) state window = read at hanswer
  cases hanswer with
  | ok h => exact .ok h
  | error => exact .error _

/-- An object whose setup has been sealed: its elements are stored, and no part of a
response has been read. -/
structure Sealed (reveal : Bool) (m : PsiMatch) (es : List Bytes) : Prop where
  failure : m.failure = .ok
  phase : m.phase = .matching
  untouched : Untouched reveal m
  stores : Stores m es
  matchedSetup : m.matchedSetup = List.replicate ((es.length + 63) / 64) 0

/-- `SealSetup` accepts a setup whose framing is done, and no other. -/
theorem sealSetup_tracks {m : PsiMatch} {framing : Framing} {es : List Bytes}
    (h : Tracks reveal m framing es) :
    if framing = .done then ∃ m', m.sealSetup = (.ok, m') ∧ Sealed reveal m' es
    else ∃ m', m.sealSetup = (.error incomplete, m') := by
  have hframe : m.setupFrame = .done ↔ framing = .done := by
    have hframed := h.framed
    cases framing with
    | tag => simp [hframed.1]
    | varint value bytesRead => simp [hframed.1]
    | body remaining reading => simp [hframed.1]
    | done => exact ⟨fun _ => rfl, fun _ => hframed⟩
  rw [sealSetup, h.failure]
  dsimp only
  rw [if_neg (not_not.mpr h.phase)]
  split <;> rename_i hdone
  · rw [if_neg (not_not.mpr (hframe.mpr hdone))]
    exact ⟨_, rfl, rfl, rfl, { h.untouched with }, { h.stores with }, by rw [h.stores.count]⟩
  · rw [if_pos (fun hs => hdone (hframe.mp hs))]
    exact ⟨_, rfl⟩

/-- The setup phase, up to the first status that is not OK. -/
def setupPhase (m : PsiMatch) (windows : List Bytes) : Except Error PsiMatch := do
  let m ← run (fun m window => accepted (m.addSetupBytes window)) m windows
  accepted m.sealSetup

/-- What the setup phase returns, as a function of the bytes alone. -/
def setupOutcome (bytes : Bytes) : Except Error (List Bytes) :=
  match run (frameByte collect) (.tag, []) bytes with
  | .error e => .error e
  | .ok (framing, es) => if framing = .done then .ok es else .error incomplete

theorem setupPhase_outcome (reveal : Bool) (windows : List Bytes) :
    Agree (Sealed reveal) (setupPhase { revealIntersection := reveal } windows)
      (setupOutcome windows.flatten) := by
  have h := addSetupBytes_windows (Tracks.fresh reveal) windows
  rw [setupPhase, setupOutcome]
  generalize run (fun m window => accepted (addSetupBytes m window)) _ windows = fed at h
  generalize run (frameByte collect) (.tag, []) windows.flatten = read at h
  cases h with
  | error e => exact .error e
  | @ok m state htracks =>
    obtain ⟨framing, es⟩ := state
    have hseal := sealSetup_tracks htracks
    dsimp only [bind, Except.bind]
    split <;> rename_i hdone
    · rw [if_pos hdone] at hseal
      obtain ⟨m', hseal, hsealed⟩ := hseal
      rw [hseal]
      exact .ok hsealed
    · rw [if_neg hdone] at hseal
      obtain ⟨m', hseal⟩ := hseal
      rw [hseal]
      exact .error incomplete

theorem setupOutcome_eq_ok_iff {bytes : Bytes} {es : List Bytes} :
    setupOutcome bytes = .ok es ↔ SetupGrammar bytes es := by
  rw [← run_collect_setup_iff, setupOutcome]
  cases run (frameByte collect) (.tag, []) bytes with
  | error e => simp
  | ok state =>
    obtain ⟨framing, collected⟩ := state
    by_cases hdone : framing = .done <;> simp [hdone]

theorem setupPhase_sealed {reveal : Bool} {windows : List Bytes} {m : PsiMatch}
    (h : setupPhase { revealIntersection := reveal } windows = .ok m) :
    ∃ setup, SetupGrammar windows.flatten setup ∧ Sealed reveal m setup := by
  have hphase := setupPhase_outcome reveal windows
  rw [h] at hphase
  generalize houtcome : setupOutcome windows.flatten = outcome at hphase
  cases hphase with
  | @ok _ setup hsealed => exact ⟨setup, setupOutcome_eq_ok_iff.mp houtcome, hsealed⟩

theorem exists_setupPhase (reveal : Bool) {windows : List Bytes} {setup : List Bytes}
    (h : SetupGrammar windows.flatten setup) :
    ∃ m, setupPhase { revealIntersection := reveal } windows = .ok m ∧ Sealed reveal m setup := by
  have hphase := setupPhase_outcome reveal windows
  rw [setupOutcome_eq_ok_iff.mpr h] at hphase
  generalize setupPhase _ windows = phase at hphase
  cases hphase with
  | @ok m _ hsealed => exact ⟨m, rfl, hsealed⟩

section SetupCalls
variable (build : Build) (decrypt : ElementOp)

def setupCalls (windows : List Bytes) : List Call := windows.map .addSetupBytes ++ [.sealSetup]

/-- The calls of the setup phase, stopped at a refusal, are the setup phase. -/
theorem run_setupCalls (m : PsiMatch) (w : Surroundings) (windows : List Bytes) :
    Agree (fun s m => s = (m, w))
      (run (fun s c => accepted (call build decrypt s c)) (m, w) (setupCalls windows))
      (setupPhase m windows) := by
  have hwindows := Agree.run (R := fun s m => s = (m, w))
    (f := fun s window => accepted (call build decrypt s (.addSetupBytes window)))
    (g := fun m window => accepted (addSetupBytes m window)) (fun s m window h => by
      subst h
      rw [call]
      rcases addSetupBytes m window with ⟨_ | e, m'⟩
      · exact .ok rfl
      · exact .error e) (rfl : (m, w) = (m, w)) windows
  rw [setupCalls, run_append, run_map, setupPhase]
  generalize run (fun s window => accepted (call build decrypt s (.addSetupBytes window))) (m, w)
    windows = called at hwindows
  generalize run (fun m window => accepted (addSetupBytes m window)) m windows = fed at hwindows
  cases hwindows with
  | error e => exact .error e
  | @ok s m' hs =>
    subst hs
    dsimp only [bind, Except.bind]
    rw [run_singleton, call]
    rcases sealSetup m' with ⟨_ | e, m''⟩
    · exact .ok rfl
    · exact .error e

/-- The calls of the setup phase on a fresh object, against its outcome. -/
theorem setupCalls_outcome (reveal : Bool) (w : Surroundings) (windows : List Bytes) :
    let called := calls build decrypt ({ revealIntersection := reveal }, w) (setupCalls windows)
    match setupOutcome windows.flatten with
    | .ok es => (∀ status ∈ called.1, status = .ok) ∧ Sealed reveal called.2.1 es
    | .error _ => ¬ ∀ status ∈ called.1, status = .ok := by
  intro called
  have hphase := setupPhase_outcome reveal windows
  have hcalls := run_setupCalls build decrypt { revealIntersection := reveal } w windows
  generalize setupPhase _ windows = phase at hphase hcalls
  generalize setupOutcome windows.flatten = outcome at hphase ⊢
  cases hphase with
  | error e =>
    intro hall
    rw [run_call_iff.mpr ⟨hall, rfl⟩] at hcalls
    cases hcalls
  | ok hsealed =>
    generalize hrun : run _ _ (setupCalls windows) = ran at hcalls
    cases hcalls with
    | ok hs =>
      obtain ⟨hall, hend⟩ := run_call_iff.mp hrun
      refine ⟨hall, ?_⟩
      rw [hend, hs]
      exact hsealed

/-- The streamed setup parser accepts exactly its grammar, keeps the elements, and after
a refusal never returns OK again. -/
theorem setup_accepts_exactly_the_grammar (reveal : Bool) (w : Surroundings) (windows : List Bytes) :
    let fresh : PsiMatch × Surroundings := ({ revealIntersection := reveal }, w)
    let statuses := (calls build decrypt fresh (setupCalls windows)).1
    let after := (calls build decrypt fresh (setupCalls windows)).2
    ((∀ status ∈ statuses, status = .ok) ↔ ∃ es, SetupGrammar windows.flatten es) ∧
      (∀ es, SetupGrammar windows.flatten es → after.1.setupSize = es.length ∧
        ∀ k (hk : k < es.length), after.1.setupElement k = es[k]) ∧
      ((¬ ∃ es, SetupGrammar windows.flatten es) → ∀ later : List Call,
        ∀ status ∈ (calls build decrypt after later).1, status ≠ .ok) ∧
      ∀ later : List Call, (calls build decrypt fresh (setupCalls windows ++ later)).1.Pairwise
        (fun earlier later => earlier ≠ .ok → later = earlier) := by
  intro fresh statuses after
  have houtcome := setupCalls_outcome build decrypt reveal w windows
  have hall : (∀ status ∈ statuses, status = .ok) ↔ ∃ es, SetupGrammar windows.flatten es := by
    simp only [← setupOutcome_eq_ok_iff]
    cases hbytes : setupOutcome windows.flatten with
    | ok es =>
      rw [hbytes] at houtcome
      exact ⟨fun _ => ⟨es, rfl⟩, fun _ => houtcome.1⟩
    | error e =>
      rw [hbytes] at houtcome
      exact ⟨fun hok => absurd hok houtcome, fun ⟨_, h⟩ => nomatch h⟩
  refine ⟨hall, ?_, ?_, fun later => calls_sticky fresh _⟩
  · intro es hgrammar
    rw [setupOutcome_eq_ok_iff.mpr hgrammar] at houtcome
    have hsealed : Sealed reveal after.1 es := houtcome.2
    exact ⟨hsealed.stores.count, fun k hk => hsealed.stores.setupElement hk⟩
  · intro hrejected later status hstatus
    obtain ⟨e, hfailure⟩ := failure_of_not_all_ok (fun hok => hrejected (hall.mp hok))
    rw [calls_of_failure hfailure] at hstatus
    rw [List.eq_of_mem_replicate hstatus]
    exact nofun

end SetupCalls

end Setup

end PsiMatch
end PrivateSetIntersection
