import PrivateSetIntersection.Streaming.PsiMatch

/-! What the parts of a call leave alone, whatever the parser and the batch hold, and with
which answers a call in its phase may end. -/
namespace PrivateSetIntersection
open Library

/-- A predicate that `onEntry` preserves holds after a window, refused or not. -/
theorem EntryReader.feed_preserves {σ : Type} {onEntry : Bytes → σ → Status × σ} {P : σ → Prop}
    (hstep : ∀ element s, P s → P (onEntry element s).2) (reader : EntryReader) (s : σ)
    (bytes : Bytes) (h : P s) : P (reader.feed onEntry s bytes).2.2 := by
  have hentry {element : Bytes} {s s' : σ} {status : Status} (h : P s)
      (hanswer : onEntry element s = (status, s')) : P s' := by
    have hs' := hstep element s h
    rwa [hanswer] at hs'
  fun_induction EntryReader.feed onEntry reader s bytes with
  | case1 => exact h
  | case2 => exact h
  | case3 _ _ _ _ _ _ ih => exact ih h
  | case4 => exact h
  | case5 => rename_i ih; exact ih h
  | case6 => exact h
  | case7 => exact hentry h ‹onEntry [] _ = _›
  | case8 => rename_i ih; exact ih (hentry h ‹onEntry [] _ = _›)
  | case9 => rename_i ih; exact ih h
  | case10 => rename_i hanswer; exact hentry h hanswer
  | case11 => rename_i hanswer ih; exact ih (hentry h hanswer)
  | case12 => rename_i hanswer; exact hentry h hanswer
  | case13 => rename_i hanswer ih; exact ih (hentry h hanswer)
  | case14 => rename_i ih; exact ih h

namespace PsiMatch

/-- What the parsing and the matching inside a call leave alone. An update of other fields
keeps it by definition: `{}`. -/
structure Keeps (m m' : PsiMatch) : Prop where
  phase : m'.phase = m.phase := by rfl
  failure : m'.failure = m.failure := by rfl
  revealIntersection : m'.revealIntersection = m.revealIntersection := by rfl
  indices : m.revealIntersection = false →
    m'.responseIndices = m.responseIndices ∧ m'.setupIndices = m.setupIndices := by
      exact fun _ => ⟨rfl, rfl⟩

theorem Keeps.refl (m : PsiMatch) : Keeps m m := {}

theorem Keeps.trans {m m' m'' : PsiMatch} (h : Keeps m m') (h' : Keeps m' m'') : Keeps m m'' where
  phase := h'.phase.trans h.phase
  failure := h'.failure.trans h.failure
  revealIntersection := h'.revealIntersection.trans h.revealIntersection
  indices hreveal := by
    have hindices := h'.indices (h.revealIntersection.trans hreveal)
    exact ⟨hindices.1.trans (h.indices hreveal).1, hindices.2.trans (h.indices hreveal).2⟩

theorem addSetupElement_keeps (element : Bytes) (m : PsiMatch) :
    Keeps m (addSetupElement element m).2 := by
  rw [addSetupElement]
  split
  · exact .refl m
  · split
    · exact .refl m
    · exact {}

theorem recordMatches_keeps (m : PsiMatch) (k : Nat) (elements : List Bytes) :
    Keeps m (m.recordMatches k elements) := by
  induction elements generalizing m k with
  | nil => exact .refl m
  | cons element rest ih =>
    rw [recordMatches]
    dsimp only
    split
    · exact ih m (k + 1)
    · refine Keeps.trans ?_ (ih _ (k + 1))
      split <;> rename_i hreveal
      · exact { indices := fun hcount => absurd (hcount.symm.trans hreveal) Bool.false_ne_true }
      · exact {}

variable (build : Build) (decrypt : ElementOp)

theorem matchBatch_keeps (s : PsiMatch × Surroundings) :
    Keeps s.1 (matchBatch build decrypt s).2.1 := by
  rw [matchBatch]
  dsimp only
  split
  · exact .refl s.1
  · split
    · exact .refl s.1
    · exact (recordMatches_keeps s.1 0 _).trans {}

theorem onResponseEntry_keeps (element : Bytes) (s : PsiMatch × Surroundings) :
    Keeps s.1 (onResponseEntry build decrypt element s).2.1 := by
  rw [onResponseEntry]
  dsimp only
  split
  · exact .refl s.1
  · split
    · refine Keeps.trans ?_ (matchBatch_keeps build decrypt _)
      exact {}
    · exact {}

/-- The answer of a call that was made in its phase: OK in the same phase, or a recorded
refusal of an object that differs from the one before in the parser or the batch. -/
inductive Answered (m : PsiMatch) : Status × PsiMatch → Prop
  | ok {m' : PsiMatch} (h : Keeps m m') : Answered m (.ok, m')
  | fail {m' : PsiMatch} (e : Error) (h : Keeps m m') : Answered m (m'.fail e)

theorem Answered.keeps {m : PsiMatch} {answer : Status × PsiMatch} (h : Answered m answer)
    (hok : answer.1 = .ok) : Keeps m answer.2 := by
  cases h with
  | ok h => exact h
  | fail e h => cases hok

theorem Answered.failure {m : PsiMatch} {answer : Status × PsiMatch} {e : Error}
    (h : Answered m answer) (hrefused : answer.1 = .error e) : answer.2.failure = .error e := by
  cases h with
  | ok h => cases hrefused
  | fail e' h => exact hrefused

theorem Answered.of_keeps {m m' : PsiMatch} {answer : Status × PsiMatch}
    (hanswer : Answered m' answer) (h : Keeps m m') : Answered m answer := by
  cases hanswer with
  | ok h' => exact .ok (h.trans h')
  | fail e h' => exact .fail e (h.trans h')

theorem addSetupLoop_answered (m : PsiMatch) (bytes : Bytes) :
    Answered m (m.addSetupLoop bytes) := by
  have hframe {m m' : PsiMatch} {window : Bytes} {reader reader' : EntryReader} {status : Status}
      (hfeed : reader.feed addSetupElement m window = (status, reader', m')) : Keeps m m' := by
    have hkeeps := EntryReader.feed_preserves (P := Keeps m)
      (fun element s h => h.trans (addSetupElement_keeps element s)) reader m window (.refl m)
    rwa [hfeed] at hkeeps
  fun_induction addSetupLoop m bytes with
  | case1 => exact .ok (.refl _)
  | case2 => exact .fail _ (.refl _)
  | case3 => rename_i ih; exact ih.of_keeps {}
  | case4 => exact .fail _ (.refl _)
  | case5 => rename_i ih; exact ih.of_keeps {}
  | case6 => rename_i ih; exact ih.of_keeps {}
  -- a piece of the body: refused, ended in an entry, ended between two, or not ended
  | case7 =>
    rename_i hfeed
    exact .fail _ ((hframe hfeed).trans {})
  | case8 =>
    rename_i hfeed _ _ _
    exact .fail _ ((hframe hfeed).trans {})
  | case9 =>
    rename_i hfeed _ _ _ ih
    exact ih.of_keeps ((hframe hfeed).trans {})
  | case10 =>
    rename_i hfeed _ _ ih
    exact ih.of_keeps ((hframe hfeed).trans {})
  | case11 => exact .fail _ (.refl _)

theorem addSetupBytes_answered {m : PsiMatch} (hfailure : m.failure = .ok) (window : Bytes) :
    Answered m (m.addSetupBytes window) := by
  rw [addSetupBytes, hfailure]
  dsimp only
  split
  · exact .fail _ (.refl m)
  · exact addSetupLoop_answered m window

theorem matchResponsePiece_answered {s : PsiMatch × Surroundings} (hfailure : s.1.failure = .ok)
    (piece : Bytes) :
    Answered s.1 ((matchResponsePiece build decrypt s piece).1,
      (matchResponsePiece build decrypt s piece).2.1) := by
  have hkeeps := EntryReader.feed_preserves (P := fun t : PsiMatch × Surroundings => Keeps s.1 t.1)
    (fun element t h => h.trans (onResponseEntry_keeps build decrypt element t))
    s.1.responseReader s piece (.refl s.1)
  rw [matchResponsePiece, hfailure]
  dsimp only
  split
  · exact .fail _ (.refl s.1)
  · split
    · exact .fail _ (.refl s.1)
    · generalize EntryReader.feed _ _ _ _ = fed at hkeeps ⊢
      obtain ⟨_ | e, reader, m, w⟩ := fed
      · have hbatch := matchBatch_keeps build decrypt ({ m with responseReader := reader }, w)
        have hread : Keeps s.1 { m with responseReader := reader } :=
          hkeeps.trans {}
        generalize matchBatch build decrypt _ = answer at hbatch ⊢
        obtain ⟨_ | e, m', w'⟩ := answer
        · exact .ok (hread.trans hbatch)
        · exact .fail e (hread.trans hbatch)
      · exact .fail e (hkeeps.trans {})

end PsiMatch

end PrivateSetIntersection
