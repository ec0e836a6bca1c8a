import PrivateSetIntersection.Streaming.Calls

/-! The order of the calls on one `PsiMatch`: a machine over the phases, which the accepted
calls follow and which the refusals of calls out of order are read off. -/
namespace PrivateSetIntersection
open Library

namespace PsiMatch

section Order

/-- The phase after a call that comes in its turn. -/
def next : Phase → Call → Option Phase
  | .setup, .addSetupBytes _ => some .setup
  | .setup, .sealSetup => some .matching
  | .matching, .matchResponsePiece _ => some .matching
  | .matching, .finish => some .finished
  | _, _ => none

/-- What is left of `AddSetupBytes* SealSetup MatchResponsePiece* Finish` in a phase,
up to its prefixes. -/
def InOrder : Phase → List Call → Prop
  | .setup, cs => ∃ windows pieces : List Bytes, cs <+: windows.map .addSetupBytes ++
      .sealSetup :: (pieces.map .matchResponsePiece ++ [.finish])
  | .matching, cs => ∃ pieces : List Bytes, cs <+: pieces.map .matchResponsePiece ++ [.finish]
  | .finished, cs => cs <+: []

theorem inOrder_nil (phase : Phase) : InOrder phase [] := by
  cases phase with
  | setup => exact ⟨[], [], List.nil_prefix⟩
  | matching => exact ⟨[], List.nil_prefix⟩
  | finished => exact List.nil_prefix

private theorem inOrder_setup_cons (c : Call) (cs : List Call) :
    InOrder .setup (c :: cs) ↔ ∃ phase, next .setup c = some phase ∧ InOrder phase cs := by
  constructor
  · rintro ⟨windows, pieces, h⟩
    cases windows with
    | nil =>
      obtain ⟨rfl, hcs⟩ := List.cons_prefix_cons.mp h
      exact ⟨.matching, rfl, pieces, hcs⟩
    | cons window windows =>
      obtain ⟨rfl, hcs⟩ := List.cons_prefix_cons.mp h
      exact ⟨.setup, rfl, windows, pieces, hcs⟩
  · rintro ⟨phase, hnext, h⟩
    cases c with
    | addSetupBytes window =>
      cases hnext
      obtain ⟨windows, pieces, h⟩ := h
      exact ⟨window :: windows, pieces, List.cons_prefix_cons.mpr ⟨rfl, h⟩⟩
    | sealSetup =>
      cases hnext
      obtain ⟨pieces, h⟩ := h
      exact ⟨[], pieces, List.cons_prefix_cons.mpr ⟨rfl, h⟩⟩
    | matchResponsePiece piece => cases hnext
    | finish => cases hnext

private theorem inOrder_matching_cons (c : Call) (cs : List Call) :
    InOrder .matching (c :: cs) ↔ ∃ phase, next .matching c = some phase ∧ InOrder phase cs := by
  constructor
  · rintro ⟨pieces, h⟩
    cases pieces with
    | nil =>
      obtain ⟨rfl, hcs⟩ := List.cons_prefix_cons.mp h
      exact ⟨.finished, rfl, hcs⟩
    | cons piece pieces =>
      obtain ⟨rfl, hcs⟩ := List.cons_prefix_cons.mp h
      exact ⟨.matching, rfl, pieces, hcs⟩
  · rintro ⟨phase, hnext, h⟩
    cases c with
    | addSetupBytes window => cases hnext
    | sealSetup => cases hnext
    | matchResponsePiece piece =>
      cases hnext
      obtain ⟨pieces, h⟩ := h
      exact ⟨piece :: pieces, List.cons_prefix_cons.mpr ⟨rfl, h⟩⟩
    | finish =>
      cases hnext
      exact ⟨[], List.cons_prefix_cons.mpr ⟨rfl, h⟩⟩

theorem inOrder_cons (phase : Phase) (c : Call) (cs : List Call) :
    InOrder phase (c :: cs) ↔ ∃ phase', next phase c = some phase' ∧ InOrder phase' cs := by
  cases phase with
  | setup => exact inOrder_setup_cons c cs
  | matching => exact inOrder_matching_cons c cs
  | finished =>
    constructor
    · exact fun h => absurd (List.prefix_nil.mp h) (List.cons_ne_nil c cs)
    · rintro ⟨phase, hnext, _⟩
      cases c <;> cases hnext

/-- A call alone is out of order exactly where the phase has no step for it. -/
theorem not_inOrder_singleton {phase : Phase} {c : Call} (h : ¬ InOrder phase [c]) :
    next phase c = none := by
  cases hnext : next phase c with
  | none => rfl
  | some phase' => exact absurd ((inOrder_cons phase c []).mpr ⟨phase', hnext, inOrder_nil phase'⟩) h

def Call.isFinish : Call → Bool
  | .finish => true
  | _ => false

theorem countP_isFinish_le {cs : List Call} (h : InOrder .setup cs) :
    cs.countP Call.isFinish ≤ 1 := by
  obtain ⟨windows, pieces, h⟩ := h
  have hwindows : (windows.map Call.addSetupBytes).countP Call.isFinish = 0 := by
    simp [List.countP_eq_zero, Call.isFinish]
  have hpieces : (pieces.map Call.matchResponsePiece).countP Call.isFinish = 0 := by
    simp [List.countP_eq_zero, Call.isFinish]
  calc cs.countP Call.isFinish
      ≤ _ := h.sublist.countP_le
    _ = 1 := by
      rw [List.countP_append, List.countP_cons, List.countP_append, hwindows, hpieces]
      rfl

end Order

section Steps
variable (build : Build) (decrypt : ElementOp)

/-- A call whose turn it is not is refused, whatever its window. -/
theorem call_out_of_order {s : PsiMatch × Surroundings} {c : Call} (hfailure : s.1.failure = .ok)
    (hnext : next s.1.phase c = none) :
    ∃ message, (call build decrypt s c).1 = .error (failedPreconditionError message) := by
  cases hphase : s.1.phase with
  | setup =>
    rw [hphase] at hnext
    cases c with
    | addSetupBytes window => cases hnext
    | sealSetup => cases hnext
    | matchResponsePiece piece => exact ⟨_, by rw [call, matchResponsePiece, hfailure, hphase]; rfl⟩
    | finish => exact ⟨_, by rw [call, finish, hfailure, hphase]; rfl⟩
  | matching =>
    rw [hphase] at hnext
    cases c with
    | addSetupBytes window => exact ⟨_, by rw [call, addSetupBytes, hfailure, hphase]; rfl⟩
    | sealSetup => exact ⟨_, by rw [call, sealSetup, hfailure, hphase]; rfl⟩
    | matchResponsePiece piece => cases hnext
    | finish => cases hnext
  | finished =>
    cases c with
    | addSetupBytes window => exact ⟨_, by rw [call, addSetupBytes, hfailure, hphase]; rfl⟩
    | sealSetup => exact ⟨_, by rw [call, sealSetup, hfailure, hphase]; rfl⟩
    | matchResponsePiece piece => exact ⟨_, by rw [call, matchResponsePiece, hfailure, hphase]; rfl⟩
    | finish => exact ⟨_, by rw [call, finish, hfailure, hphase]; rfl⟩

private theorem sealSetup_in_turn {m m' : PsiMatch} (h : m.sealSetup = (.ok, m')) :
    m'.phase = .matching ∧ m'.failure = .ok := by
  rw [sealSetup] at h
  split at h
  · cases h
  · rename_i hfailure
    split_ifs at h <;> cases h
    exact ⟨rfl, hfailure⟩

private theorem finish_in_turn {m m' : PsiMatch} {result : PsiMatchResult}
    (h : m.finish = (.ok result, m')) : m'.phase = .finished ∧ m'.failure = .ok := by
  rw [finish] at h
  split at h
  · cases h
  · rename_i hfailure
    split_ifs at h <;> cases h
    exact ⟨rfl, hfailure⟩

theorem call_in_turn {s : PsiMatch × Surroundings} {c : Call} {phase : Phase}
    (hfailure : s.1.failure = .ok) (hnext : next s.1.phase c = some phase)
    (hok : (call build decrypt s c).1 = .ok) :
    (call build decrypt s c).2.1.phase = phase ∧ (call build decrypt s c).2.1.failure = .ok := by
  cases c with
  | addSetupBytes window =>
    have hkept := (addSetupBytes_answered hfailure window).keeps hok
    cases hphase : s.1.phase <;> rw [hphase] at hnext <;> cases hnext
    exact ⟨hkept.phase.trans hphase, hkept.failure.trans hfailure⟩
  | sealSetup =>
    cases hphase : s.1.phase <;> rw [hphase] at hnext <;> cases hnext
    exact sealSetup_in_turn (Prod.ext hok rfl)
  | matchResponsePiece piece =>
    have hkept := (matchResponsePiece_answered build decrypt hfailure piece).keeps hok
    cases hphase : s.1.phase <;> rw [hphase] at hnext <;> cases hnext
    exact ⟨hkept.phase.trans hphase, hkept.failure.trans hfailure⟩
  | finish =>
    cases hphase : s.1.phase <;> rw [hphase] at hnext <;> cases hnext
    rcases hfinish : s.1.finish with ⟨e | result, m'⟩
    · rw [call, hfinish] at hok
      cases hok
    · rw [call, hfinish]
      exact finish_in_turn hfinish

theorem call_accepted {s s' : PsiMatch × Surroundings} {c : Call}
    (h : call build decrypt s c = (.ok, s')) :
    next s.1.phase c = some s'.1.phase ∧ s'.1.failure = .ok := by
  have hfailure : s.1.failure = .ok := by
    cases hs : s.1.failure with
    | ok => rfl
    | error e =>
      rw [call_of_failure hs] at h
      cases h
  cases hnext : next s.1.phase c with
  | none =>
    obtain ⟨message, hrefused⟩ := call_out_of_order build decrypt hfailure hnext
    rw [h] at hrefused
    cases hrefused
  | some phase =>
    have hturn := call_in_turn build decrypt hfailure hnext (by rw [h])
    rw [h] at hturn
    exact ⟨congrArg some hturn.1.symm, hturn.2⟩

/-- A count-only match that holds no index. -/
structure CountOnly (m : PsiMatch) : Prop where
  revealIntersection : m.revealIntersection = false
  responseIndices : m.responseIndices = []
  setupIndices : m.setupIndices = []

private theorem Keeps.countOnly {m m' : PsiMatch} (h : Keeps m m') (hcount : CountOnly m) :
    CountOnly m' where
  revealIntersection := h.revealIntersection.trans hcount.revealIntersection
  responseIndices := (h.indices hcount.revealIntersection).1.trans hcount.responseIndices
  setupIndices := (h.indices hcount.revealIntersection).2.trans hcount.setupIndices

private theorem Answered.countOnly {m : PsiMatch} {answer : Status × PsiMatch}
    (h : Answered m answer) (hcount : CountOnly m) : CountOnly answer.2 := by
  cases h with
  | ok h => exact h.countOnly hcount
  | fail e h => exact { h.countOnly hcount with }

/-- Every call keeps a count-only match free of indices, also where it refuses. -/
theorem call_countOnly {s : PsiMatch × Surroundings} (h : CountOnly s.1) (c : Call) :
    CountOnly (call build decrypt s c).2.1 := by
  cases hfailure : s.1.failure with
  | error e => rwa [call_of_failure hfailure]
  | ok =>
    cases c with
    | addSetupBytes window => exact (addSetupBytes_answered hfailure window).countOnly h
    | sealSetup =>
      rw [call, sealSetup, hfailure]
      dsimp only
      split_ifs
      · exact { h with }
      · exact { h with }
      · exact { h with }
    | matchResponsePiece piece => exact (matchResponsePiece_answered build decrypt hfailure piece).countOnly h
    | finish =>
      rw [call, finish, hfailure]
      dsimp only
      split_ifs
      · exact { h with }
      · exact { h with }
      · exact ⟨h.revealIntersection, rfl, rfl⟩
      · exact { h with }

end Steps

section Runs
variable {build : Build} {decrypt : ElementOp}

def acceptedCalls (build : Build) (decrypt : ElementOp) (s : PsiMatch × Surroundings)
    (cs : List Call) : List Call :=
  ((cs.zip (calls build decrypt s cs).1).filter (fun answered => answered.2 = .ok)).map Prod.fst

theorem acceptedCalls_cons (s : PsiMatch × Surroundings) (c : Call) (cs : List Call) :
    acceptedCalls build decrypt s (c :: cs) =
      (if (call build decrypt s c).1 = .ok then [c] else []) ++
        acceptedCalls build decrypt (call build decrypt s c).2 cs := by
  rw [acceptedCalls, calls_cons, List.zip_cons_cons, List.filter_cons]
  split <;> rename_i hok
  · rw [if_pos (of_decide_eq_true hok)]
    rfl
  · rw [if_neg (fun h => hok (decide_eq_true h))]
    rfl

theorem acceptedCalls_of_failure {s : PsiMatch × Surroundings} {e : Error}
    (h : s.1.failure = .error e) (cs : List Call) : acceptedCalls build decrypt s cs = [] := by
  induction cs with
  | nil => rfl
  | cons c cs ih => rw [acceptedCalls_cons, call_of_failure h, if_neg nofun, List.nil_append, ih]

/-- From any object that has not refused, the accepted calls are what its phase allows. -/
theorem acceptedCalls_inOrder {s : PsiMatch × Surroundings} (hfailure : s.1.failure = .ok)
    (cs : List Call) : InOrder s.1.phase (acceptedCalls build decrypt s cs) := by
  induction cs generalizing s with
  | nil => exact inOrder_nil _
  | cons c cs ih =>
    rw [acceptedCalls_cons]
    rcases hcall : call build decrypt s c with ⟨_ | e, s'⟩
    · obtain ⟨hnext, hfailure'⟩ := call_accepted build decrypt hcall
      rw [if_pos rfl, List.singleton_append, inOrder_cons]
      exact ⟨_, hnext, ih hfailure'⟩
    · rw [if_neg nofun, acceptedCalls_of_failure (call_failure hcall)]
      exact inOrder_nil _

/-- The first call out of order, with nothing refused before it, is refused for that. -/
theorem calls_out_of_order {s : PsiMatch × Surroundings} (hfailure : s.1.failure = .ok)
    {before : List Call} (hbefore : ∀ status ∈ (calls build decrypt s before).1, status = .ok)
    {c : Call} (horder : ¬ InOrder s.1.phase (before ++ [c])) :
    ∃ message, (call build decrypt (calls build decrypt s before).2 c).1 =
      .error (failedPreconditionError message) := by
  induction before generalizing s with
  | nil => exact call_out_of_order build decrypt hfailure (not_inOrder_singleton horder)
  | cons b before ih =>
    rw [calls_cons] at hbefore ⊢
    obtain ⟨hb, hbefore⟩ := List.forall_mem_cons.mp hbefore
    obtain ⟨hnext, hfailure'⟩ := call_accepted build decrypt (Prod.ext hb rfl)
    refine ih hfailure' hbefore (fun hrest => horder ?_)
    rw [List.cons_append, inOrder_cons]
    exact ⟨_, hnext, hrest⟩

theorem calls_countOnly {s : PsiMatch × Surroundings} (h : CountOnly s.1) (cs : List Call) :
    CountOnly (calls build decrypt s cs).2.1 := by
  induction cs generalizing s with
  | nil => exact h
  | cons c cs ih => exact ih (call_countOnly build decrypt h c)

/-- Any calls in any order: refusals are sticky, what is accepted is in order, a call out
of order is refused as such, and a count-only match never holds an index. -/
theorem call_protocol (build : Build) (decrypt : ElementOp) (reveal : Bool) (w : Surroundings) :
    let fresh : PsiMatch × Surroundings := ({ revealIntersection := reveal }, w)
    (∀ cs, (calls build decrypt fresh cs).1.Pairwise
      (fun earlier later => earlier ≠ .ok → later = earlier)) ∧
    (∀ cs, InOrder .setup (acceptedCalls build decrypt fresh cs) ∧
      (acceptedCalls build decrypt fresh cs).countP Call.isFinish ≤ 1) ∧
    (∀ before c, (∀ status ∈ (calls build decrypt fresh before).1, status = .ok) →
      ¬ InOrder .setup (before ++ [c]) →
      ∃ message, (call build decrypt (calls build decrypt fresh before).2 c).1 =
        .error (failedPreconditionError message)) ∧
    (reveal = false → ∀ cs, (calls build decrypt fresh cs).2.1.responseIndices = [] ∧
      (calls build decrypt fresh cs).2.1.setupIndices = []) := by
  intro fresh
  have horder (cs : List Call) : InOrder .setup (acceptedCalls build decrypt fresh cs) :=
    acceptedCalls_inOrder (s := fresh) rfl cs
  refine ⟨calls_sticky fresh, fun cs => ⟨horder cs, countP_isFinish_le (horder cs)⟩, ?_, ?_⟩
  · intro before c hbefore hc
    exact calls_out_of_order (s := fresh) rfl hbefore hc
  · rintro rfl cs
    have hcount : CountOnly (calls build decrypt fresh cs).2.1 :=
      calls_countOnly (s := fresh) ⟨rfl, rfl, rfl⟩ cs
    exact ⟨hcount.responseIndices, hcount.setupIndices⟩

end Runs

end PsiMatch

end PrivateSetIntersection
