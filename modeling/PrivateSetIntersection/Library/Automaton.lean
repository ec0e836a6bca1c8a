import Mathlib

/-! Machines that read one symbol at a time and may refuse. Cutting the input into
windows does not change a run, and a relation that steps preserve is preserved by runs. -/
namespace Library.Automaton
variable {α ε σ τ : Type}

def run (step : σ → α → Except ε σ) (s : σ) (xs : List α) : Except ε σ := xs.foldlM step s

section Run
variable (step : σ → α → Except ε σ)

@[simp] theorem run_nil (s : σ) : run step s [] = .ok s := rfl

theorem run_cons (s : σ) (x : α) (xs : List α) :
    run step s (x :: xs) = (step s x >>= fun s => run step s xs) := rfl

@[simp] theorem run_singleton (s : σ) (x : α) : run step s [x] = step s x :=
  bind_pure _

theorem run_cons_ok {s t : σ} {x : α} (h : step s x = .ok t) (xs : List α) :
    run step s (x :: xs) = run step t xs := by
  rw [run_cons, h]
  rfl

theorem run_cons_error {s : σ} {x : α} {e : ε} (h : step s x = .error e) (xs : List α) :
    run step s (x :: xs) = .error e := by
  rw [run_cons, h]
  rfl

theorem run_append (s : σ) (xs ys : List α) :
    run step s (xs ++ ys) = (run step s xs >>= fun s => run step s ys) :=
  List.foldlM_append

theorem run_append_ok {s t : σ} {xs : List α} (h : run step s xs = .ok t) (ys : List α) :
    run step s (xs ++ ys) = run step t ys := by
  rw [run_append, h]
  rfl

theorem run_append_error {s : σ} {xs : List α} {e : ε} (h : run step s xs = .error e)
    (ys : List α) : run step s (xs ++ ys) = .error e := by
  rw [run_append, h]
  rfl

theorem run_map {β : Type} (f : β → α) (s : σ) (xs : List β) :
    run step s (xs.map f) = run (fun s x => step s (f x)) s xs :=
  List.foldlM_map

theorem run_windows (s : σ) (windows : List (List α)) :
    run (run step) s windows = run step s windows.flatten := by
  induction windows generalizing s with
  | nil => rfl
  | cons window windows ih =>
    rw [List.flatten_cons]
    cases h : run step s window with
    | ok t => rw [run_append_ok step h, run_cons_ok _ h, ih]
    | error e => rw [run_append_error step h, run_cons_error _ h]

theorem run_preserves {P : σ → Prop} (hstep : ∀ s x t, P s → step s x = .ok t → P t)
    {s t : σ} {xs : List α} (hs : P s) (h : run step s xs = .ok t) : P t := by
  induction xs generalizing s with
  | nil =>
    cases h
    exact hs
  | cons x xs ih =>
    cases hx : step s x with
    | ok u =>
      rw [run_cons_ok step hx] at h
      exact ih (hstep s x u hs hx) h
    | error e =>
      rw [run_cons_error step hx] at h
      cases h

/-- An accepted run over an appended symbol is an accepted run and an accepted step. -/
theorem run_concat_eq_ok {s u : σ} {xs : List α} {x : α} :
    run step s (xs ++ [x]) = .ok u ↔ ∃ t, run step s xs = .ok t ∧ step t x = .ok u := by
  cases h : run step s xs with
  | ok t =>
    rw [run_append_ok step h]
    cases hx : step t x with
    | ok v => simp [run_cons_ok step hx, hx]
    | error e => simp [run_cons_error step hx, hx]
  | error e => simp [run_append_error step h]

end Run

/-- Two outcomes agree: the same refusal, or related states. -/
inductive Agree (R : σ → τ → Prop) : Except ε σ → Except ε τ → Prop where
  | ok {s : σ} {t : τ} : R s t → Agree R (.ok s) (.ok t)
  | error (e : ε) : Agree R (.error e) (.error e)

/-- A relation kept by single steps is kept by runs, refusals included. -/
theorem Agree.run {R : σ → τ → Prop} {f : σ → α → Except ε σ} {g : τ → α → Except ε τ}
    (hstep : ∀ s t x, R s t → Agree R (f s x) (g t x)) {s : σ} {t : τ} (h : R s t) (xs : List α) :
    Agree R (Automaton.run f s xs) (Automaton.run g t xs) := by
  induction xs generalizing s t with
  | nil => exact .ok h
  | cons x xs ih =>
    have hx := hstep s t x h
    generalize hf : f s x = fs, hg : g t x = gt at hx
    cases hx with
    | ok hst =>
      rw [run_cons_ok f hf, run_cons_ok g hg]
      exact ih hst
    | error e =>
      rw [run_cons_error f hf, run_cons_error g hg]
      exact .error e

section Refines
variable {ε' : Type} {R : σ → τ → Prop} {Doomed : τ → Prop}

/-- One machine may refuse earlier than another, as long as the other one cannot
recover: it will refuse as well, or end in a state that is doomed. -/
def Refines (R : σ → τ → Prop) (Doomed : τ → Prop) : Except ε σ → Except ε' τ → Prop
  | .ok s, answer => ∃ t, answer = .ok t ∧ R s t
  | .error _, answer => ∀ t, answer = .ok t → Doomed t

/-- What holds of single steps holds of runs, where doom lasts. -/
theorem Refines.run {f : σ → α → Except ε σ} {g : τ → α → Except ε' τ}
    (hstep : ∀ s t x, R s t → Refines R Doomed (f s x) (g t x))
    (hlasts : ∀ t x u, Doomed t → g t x = .ok u → Doomed u) {s : σ} {t : τ} (h : R s t)
    (xs : List α) : Refines R Doomed (Automaton.run f s xs) (Automaton.run g t xs) := by
  induction xs generalizing s t with
  | nil => exact ⟨t, rfl, h⟩
  | cons x xs ih =>
    have hx := hstep s t x h
    cases hf : f s x with
    | ok s' =>
      rw [hf] at hx
      obtain ⟨t', hg, hst⟩ := hx
      rw [run_cons_ok f hf, run_cons_ok g hg]
      exact ih hst
    | error e =>
      rw [hf] at hx
      rw [run_cons_error f hf]
      intro u hu
      cases hg : g t x with
      | ok t' =>
        rw [run_cons_ok g hg] at hu
        exact run_preserves g hlasts (hx t' hg) hu
      | error e' =>
        rw [run_cons_error g hg] at hu
        cases hu

end Refines

/-- A relation kept where both machines accept a symbol is kept where both accept a run. -/
theorem run_lockstep {ε' : Type} {R : σ → τ → Prop} {f : σ → α → Except ε σ} {g : τ → α → Except ε' τ}
    (hstep : ∀ s t x s' t', R s t → f s x = .ok s' → g t x = .ok t' → R s' t') {s s' : σ} {t t' : τ}
    {xs : List α} (h : R s t) (hf : Automaton.run f s xs = .ok s') (hg : Automaton.run g t xs = .ok t') :
    R s' t' := by
  induction xs generalizing s t with
  | nil =>
    cases hf
    cases hg
    exact h
  | cons x xs ih =>
    cases hfx : f s x with
    | error e =>
      rw [run_cons_error f hfx] at hf
      cases hf
    | ok u =>
      cases hgx : g t x with
      | error e =>
        rw [run_cons_error g hgx] at hg
        cases hg
      | ok v =>
        rw [run_cons_ok f hfx] at hf
        rw [run_cons_ok g hgx] at hg
        exact ih (hstep s t x u v h hfx hgx) hf hg

end Library.Automaton
