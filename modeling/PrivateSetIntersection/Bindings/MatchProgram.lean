import PrivateSetIntersection.Bindings.Match

/-! What a program sees of `match.ts`: it feeds the chunks of the setup, seals it, feeds the
pieces of the response and finishes, whatever any of the calls throws. -/
namespace PrivateSetIntersection.Javascript
open Library Automaton PsiMatch

namespace Match

def program (chunks pieces : List Bytes) : List Method :=
  chunks.map .addSetupBytes ++ .sealSetup :: (pieces.map .matchResponsePiece ++ [.finish])

/-- Calls of which the first ones return and all others throw one text. -/
def throwing (returned thrown : Nat) (text : String) : List (Except String Returned) :=
  List.replicate returned (.ok .undefined) ++ List.replicate thrown (.error text)

section Thrown
variable (backend : Backend) {decrypt : ElementOp}

/-- An instance that has refused, as a program holds it. -/
def Refused (e : Error) (o : Match) : Prop := ∃ m, o.live = some m ∧ m.failure = .error e

theorem checked_refused {answer : Status × PsiMatch × Surroundings} {e : Error}
    (h : answer.1 = .error e ∧ answer.2.1.failure = .error e) :
    (checked answer).1 = .error e.message ∧ Refused e (checked answer).2 := by
  refine ⟨?_, answer.2.1, rfl, h.2⟩
  rw [checked, h.1, check]

/-- Whatever is called on it throws the text of its error, until it is deleted. -/
theorem call_refused_throws {o : Match} {e : Error} (h : Refused e o) {method : Method} (hmethod : method ≠ .delete) :
    (call backend decrypt o method).1 = .error e.message ∧ Refused e (call backend decrypt o method).2 := by
  obtain ⟨m, hlive, hfailure⟩ := h
  rw [call, hlive]
  cases method with
  | delete => exact absurd rfl hmethod
  | addSetupBytes bytes =>
    exact checked_refused (handOver_out_of_order backend (fun window => (call_refused _ hfailure _).1) bytes)
  | sealSetup => exact checked_refused (call_refused _ hfailure _)
  | matchResponsePiece bytes =>
    exact checked_refused (handOver_out_of_order backend (fun window => (call_refused _ hfailure _).1) bytes)
  | finish =>
    dsimp only
    rw [PsiMatch.finish, hfailure]
    exact ⟨rfl, m, rfl, hfailure⟩

theorem calls_refused {o : Match} {e : Error} (h : Refused e o) {methods : List Method}
    (hmethods : ∀ method ∈ methods, method ≠ .delete) :
    (calls backend decrypt o methods).1 = List.replicate methods.length (.error e.message) := by
  induction methods generalizing o with
  | nil => rfl
  | cons method methods ih =>
    rw [List.forall_mem_cons] at hmethods
    obtain ⟨hthrown, hnext⟩ := @call_refused_throws backend decrypt _ _ h _ hmethods.1
    rw [calls_cons, hthrown, ih hnext hmethods.2]
    rfl

end Thrown

section Fed
variable (backend : Backend) {decrypt : ElementOp}

/-- Arrays handed over one after the other, up to the first that is refused. -/
def fed (decrypt : ElementOp) (make : Bytes → PsiMatch.Call) (s : PsiMatch × Surroundings) (arrays : List Bytes) :
    Except Error (PsiMatch × Surroundings) :=
  run (fun s bytes => accepted (backend.handOver (consume backend.build decrypt make) s bytes)) s arrays

def holding (s : PsiMatch × Surroundings) : Match := ⟨some s.1, s.2⟩

/-- Methods that hand an array over each return, or from the first refusal on throw. -/
theorem calls_fed {make : Bytes → PsiMatch.Call} {method : Bytes → Method}
    (hcall : ∀ s bytes, call backend decrypt (holding s) (method bytes) =
      checked (backend.handOver (consume backend.build decrypt make) s bytes))
    (hmethod : ∀ bytes, method bytes ≠ .delete) (s : PsiMatch × Surroundings) (arrays : List Bytes)
    {rest : List Method} (hrest : ∀ m ∈ rest, m ≠ .delete) :
    match fed backend decrypt make s arrays with
    | .ok s' => (calls backend decrypt (holding s) (arrays.map method ++ rest)).1 =
        List.replicate arrays.length (.ok .undefined) ++ (calls backend decrypt (holding s') rest).1
    | .error e => ∃ k < arrays.length, (calls backend decrypt (holding s) (arrays.map method ++ rest)).1 =
        throwing k (arrays.length + rest.length - k) e.message := by
  induction arrays generalizing s with
  | nil => rfl
  | cons bytes arrays ih =>
    rw [List.map_cons, List.cons_append, calls_cons, hcall]
    cases haccepted : accepted (backend.handOver (consume backend.build decrypt make) s bytes) with
    | ok s' =>
      rw [fed, run_cons_ok _ haccepted, accepted_eq_ok haccepted]
      have hnext := ih s'
      rw [fed] at hnext
      generalize run _ s' arrays = answer at hnext
      cases answer with
      | ok s'' =>
        dsimp only at hnext ⊢
        rw [List.length_cons, List.replicate_succ, List.cons_append, ← hnext]
        rfl
      | error e =>
        obtain ⟨k, hk, houtcomes⟩ := hnext
        refine ⟨k + 1, Nat.succ_lt_succ hk, ?_⟩
        rw [List.length_cons, throwing, List.replicate_succ, List.cons_append, Nat.add_right_comm,
          Nat.add_sub_add_right]
        exact congrArg (List.cons (.ok .undefined)) houtcomes
    | error e =>
      have hrefused := accepted_eq_error_iff.mp haccepted
      obtain ⟨hthrown, hnext⟩ := checked_refused ⟨hrefused, handOver_failure backend hrefused⟩
      rw [fed, run_cons_error _ haccepted]
      refine ⟨0, Nat.succ_pos _, ?_⟩
      rw [hthrown, calls_refused backend hnext]
      · rw [throwing, List.length_append, List.length_map, List.length_cons, Nat.sub_zero,
          Nat.add_right_comm, List.replicate_succ]
        rfl
      · intro m hm
        rcases List.mem_append.mp hm with hm | hm
        · obtain ⟨b, -, rfl⟩ := List.mem_map.mp hm
          exact hmethod b
        · exact hrest m hm

variable {reveal : Bool}

theorem fed_setup {s : PsiMatch × Surroundings} {framing : Framing} {es : List Bytes}
    (h : Tracks reveal s.1 framing es) (chunks : List Bytes) :
    Agree (fun s state => Tracks reveal s.1 state.1 state.2) (fed backend decrypt .addSetupBytes s chunks)
      (run (frameByte collect) (framing, es) chunks.flatten) := by
  rw [← run_windows]
  refine Agree.run (R := fun (s : PsiMatch × Surroundings) (state : Framing × List Bytes) =>
    Tracks reveal s.1 state.1 state.2) ?_ h chunks
  intro s state chunk h
  exact handOver_setup backend h chunk

theorem fed_response {setup : List Bytes} (hascending : setup.Pairwise (· < ·)) (hcount : setup.length ≤ 2 ^ 32)
    {s : PsiMatch × Surroundings} {state : Reading × List Bytes} (h : Between decrypt reveal setup s state)
    (pieces : List Bytes) :
    Refines (Between decrypt reveal setup) (fun state => Undecryptable decrypt state.2)
      (fed backend decrypt .matchResponsePiece s pieces) (run (readByte takeEntry) state pieces.flatten) := by
  rw [← run_windows]
  refine Refines.run (f := fun s bytes => accepted (backend.handOver (consume backend.build decrypt _) s bytes))
    ?_ ?_ h pieces
  · intro s state piece h
    exact handOver_response backend hascending hcount h piece
  · intro state piece next hdoomed hnext
    exact run_preserves _ undecryptable_lasts hdoomed hnext

end Fed

section Phases
variable (backend : Backend) {decrypt : ElementOp} {reveal : Bool}

def returned (reveal : Bool) (result : PsiMatchResult) : Returned :=
  .result ⟨result.intersectionSize, result.decryptedCount,
    if reveal then some (result.responseIndices, result.setupIndices) else none⟩

theorem calls_finish (s : PsiMatch × Surroundings) :
    (calls backend decrypt (holding s) [.finish]).1 =
      [match s.1.finish.1 with
        | .ok result => .ok (returned s.1.revealIntersection result)
        | .error e => .error e.message] := by
  have hkept := finish_revealIntersection s.1
  rw [show (calls backend decrypt (holding s) [.finish]).1 = [(call backend decrypt (holding s) .finish).1] from rfl,
    call]
  dsimp only [holding]
  rcases hfinish : s.1.finish with ⟨e | result, m⟩
  · rfl
  · rw [hfinish] at hkept
    dsimp only at hkept
    simp only [resultOf, hkept, returned]

/-- A response that a match refuses has no plain elements. -/
theorem responsePlains_refused {bytes : Bytes} (h : ∀ state, run (readByte takeEntry) (.tag, []) bytes = .ok state →
    Undecryptable decrypt state.2) : responsePlains decrypt bytes = none := by
  rw [responsePlains]
  split <;> rename_i hread
  · obtain ⟨e, he⟩ := h _ hread
    rw [show _ = Except.error e from he]
    rfl
  · rfl

/-- The last part of a program, on a sealed setup. -/
theorem calls_response {setup : List Bytes} (hascending : setup.Pairwise (· < ·)) (hcount : setup.length ≤ 2 ^ 32)
    {s : PsiMatch × Surroundings} (h : Between decrypt reveal setup s (.tag, [])) (pieces : List Bytes) :
    let outcomes := (calls backend decrypt (holding s) (pieces.map .matchResponsePiece ++ [.finish])).1
    match responsePlains decrypt pieces.flatten with
    | some plains => outcomes = List.replicate pieces.length (.ok .undefined) ++
        [.ok (returned reveal (matchResult reveal setup plains))]
    | none => ∃ k text, k ≤ pieces.length ∧ outcomes = throwing k (pieces.length + 1 - k) text := by
  intro outcomes
  have hlast : ∀ m ∈ [Method.finish], m ≠ .delete := by
    intro m hm hdelete
    rw [List.mem_singleton.mp hm] at hdelete
    cases hdelete
  have hfed := @calls_fed backend decrypt .matchResponsePiece .matchResponsePiece (fun _ _ => rfl)
    (fun _ h => by cases h) s pieces [.finish] hlast
  have hread := @fed_response backend decrypt reveal _ hascending hcount _ _ h pieces
  generalize fed backend decrypt .matchResponsePiece s pieces = answer at hfed hread
  cases answer with
  | error e =>
    obtain ⟨k, hk, houtcomes⟩ := hfed
    rw [responsePlains_refused hread]
    exact ⟨k, e.message, hk.le, houtcomes⟩
  | ok s' =>
    obtain ⟨⟨ρ, entries⟩, hread, hbetween⟩ := hread
    have hfinish := finish_between hbetween
    have hreveal : s'.1.revealIntersection = reveal := hbetween.2.1.revealIntersection
    dsimp only at hfed
    rw [calls_finish, hreveal] at hfed
    split at hfinish <;> rename_i htag
    · obtain ⟨plains, hplains, hresult⟩ := hfinish
      have hall : responsePlains decrypt pieces.flatten = some plains := by
        rw [responsePlains, hread, htag]
        dsimp only
        rw [hplains]
        rfl
      rw [hresult] at hfed
      rw [hall]
      exact hfed
    · have hnone : responsePlains decrypt pieces.flatten = none := by
        rw [responsePlains, hread]
        cases ρ with
        | tag => exact absurd rfl htag
        | varint => rfl
        | element => rfl
      rw [hfinish] at hfed
      rw [hnone]
      refine ⟨pieces.length, insideAnElement.message, Nat.le_refl _, hfed.trans ?_⟩
      rw [throwing, Nat.add_sub_cancel_left]
      rfl

/-- What a program sees, from the bytes of both sides: the result and nothing else, or from
the refusal on a throw by every call. A refused setup is refused with its own text. -/
theorem program_outcome (chunks pieces : List Bytes) :
    let outcomes := (calls backend decrypt (create reveal) (program chunks pieces)).1
    match setupOutcome chunks.flatten with
    | .error e => ∃ k ≤ chunks.length,
        outcomes = throwing k (chunks.length + 1 + pieces.length + 1 - k) e.message
    | .ok setup =>
      match responsePlains decrypt pieces.flatten with
      | some plains => outcomes = List.replicate (chunks.length + 1 + pieces.length) (.ok .undefined) ++
          [.ok (returned reveal (matchResult reveal setup plains))]
      | none => ∃ k text, chunks.length < k ∧ k ≤ chunks.length + 1 + pieces.length ∧
          outcomes = throwing k (chunks.length + 1 + pieces.length + 1 - k) text := by
  intro outcomes
  have hrest : ∀ m ∈ Method.sealSetup :: (pieces.map .matchResponsePiece ++ [.finish]), m ≠ .delete := by
    intro m hm hdelete
    subst hdelete
    simp at hm
  have hfed := @calls_fed backend decrypt .addSetupBytes .addSetupBytes (fun _ _ => rfl) (fun _ h => by cases h)
    (.fresh reveal, {}) chunks _ hrest
  have hread := @fed_setup backend decrypt reveal (.fresh reveal, {}) _ _ (.fresh reveal) chunks
  have hlength : (Method.sealSetup :: (pieces.map Method.matchResponsePiece ++ [.finish])).length =
      1 + pieces.length + 1 := by
    rw [List.length_cons, List.length_append, List.length_map, List.length_singleton]
    omega
  rw [hlength] at hfed
  rw [setupOutcome]
  generalize fed backend decrypt .addSetupBytes _ chunks = answer at hfed hread
  cases hframed : run (frameByte collect) (.tag, []) chunks.flatten with
  | error e =>
    rw [hframed] at hread
    cases hread
    obtain ⟨k, hk, hfed⟩ := hfed
    refine ⟨k, hk.le, hfed.trans ?_⟩
    rw [← Nat.add_assoc, ← Nat.add_assoc]
  | ok state =>
    obtain ⟨framing, es⟩ := state
    rw [hframed] at hread
    cases hread with
    | @ok s' _ htracks =>
      have hseal := sealSetup_tracks htracks
      have hcall : call backend decrypt (holding s') .sealSetup =
          checked (PsiMatch.call backend.build decrypt s' .sealSetup) := rfl
      dsimp only at hfed hseal ⊢
      rw [calls_cons, hcall, PsiMatch.call] at hfed
      split at hseal <;> rename_i hdone
      · obtain ⟨m, hm, hsealed⟩ := hseal
        rw [hdone] at hframed
        have hgrammar := run_collect_setup_iff.mp hframed
        have hresponse := @calls_response backend decrypt reveal _ hgrammar.ascending hgrammar.length_le _
          (hsealed.between s'.2) pieces
        rw [if_pos hdone]
        rw [hm] at hfed
        change outcomes = List.replicate chunks.length (.ok .undefined) ++
          .ok .undefined :: (calls backend decrypt (holding (m, s'.2)) _).1 at hfed
        dsimp only
        cases hplains : responsePlains decrypt pieces.flatten with
        | some plains =>
          rw [hplains] at hresponse
          dsimp only
          rw [hfed, hresponse]
          simp only [List.replicate_add, List.replicate_one, List.append_assoc, List.cons_append, List.nil_append]
        | none =>
          rw [hplains] at hresponse
          obtain ⟨k, text, hk, hthrown⟩ := hresponse
          refine ⟨chunks.length + 1 + k, text, by omega, by omega, ?_⟩
          rw [hfed, hthrown, throwing, throwing,
            show chunks.length + 1 + pieces.length + 1 - (chunks.length + 1 + k) = pieces.length + 1 - k by omega]
          simp only [List.replicate_add, List.replicate_one, List.append_assoc, List.cons_append, List.nil_append]
      · obtain ⟨m, hm⟩ := hseal
        rw [if_neg hdone]
        have hrefused : PsiMatch.call backend.build decrypt s' .sealSetup = (.error incomplete, m, s'.2) := by
          rw [PsiMatch.call, hm]
        obtain ⟨hthrown, hnext⟩ := @checked_refused (.error incomplete, m, s'.2) _ ⟨rfl, call_failure hrefused⟩
        rw [hm] at hfed
        dsimp only at hfed
        rw [hthrown, calls_refused backend hnext fun method hmethod => hrest method (List.mem_cons_of_mem _ hmethod)]
          at hfed
        refine ⟨chunks.length, Nat.le_refl _, hfed.trans ?_⟩
        rw [throwing, Nat.add_assoc, Nat.add_assoc, Nat.add_sub_cancel_left, List.length_append, List.length_map,
          List.length_singleton, Nat.add_comm 1, List.replicate_succ]
        rfl

end Phases

end Match

end PrivateSetIntersection.Javascript
