import Mathlib.Order.Basic
import Mathlib.Tactic.TypeStar

/-!
# Execution — runs of a partial step function

A machine is a partial step function `step : σ → ε → Option σ` over events; `allowed` says which
events its environment may produce in a state.  A run carries out a list of events one by one, each
allowed where it happens.  `replay` computes the end of a run, so that a concrete run can be
evaluated.
-/

namespace Execution

variable {σ ε : Type*} {step : σ → ε → Option σ} {allowed allowed' : σ → ε → Prop}
  {s₀ s₁ s s' : σ} {es es' : List ε} {e : ε}

/-- Runs from `s₀` in which every event is allowed in the state it happens in. -/
inductive Run (step : σ → ε → Option σ) (allowed : σ → ε → Prop) (s₀ : σ) : List ε → σ → Prop
  | nil : Run step allowed s₀ [] s₀
  | snoc {es : List ε} {s s' : σ} {e : ε} : Run step allowed s₀ es s → allowed s e →
      step s e = some s' → Run step allowed s₀ (es ++ [e]) s'

/-- What holds at the start and is kept by every allowed step holds at the end of every run. -/
theorem Run.invariant (P : σ → Prop) (hstart : P s₀)
    (hkeep : ∀ s e s', P s → allowed s e → step s e = some s' → P s')
    (hrun : Run step allowed s₀ es s) : P s := by
  induction hrun with
  | nil => exact hstart
  | snoc _ hallowed hstep ih => exact hkeep _ _ _ ih hallowed hstep

theorem Run.mono (himp : ∀ s e, allowed s e → allowed' s e) (hrun : Run step allowed s₀ es s) :
    Run step allowed' s₀ es s := by
  induction hrun with
  | nil => exact Run.nil
  | snoc _ hallowed hstep ih => exact Run.snoc ih (himp _ _ hallowed) hstep

theorem Run.trans (hrun : Run step allowed s₀ es s₁) (hrun' : Run step allowed s₁ es' s) :
    Run step allowed s₀ (es ++ es') s := by
  induction hrun' with
  | nil => simpa using hrun
  | snoc _ hallowed hstep ih =>
      rw [← List.append_assoc]
      exact Run.snoc ih hallowed hstep

theorem Run.cons (hallowed : allowed s₀ e) (hstep : step s₀ e = some s₁)
    (hrun : Run step allowed s₁ es s) : Run step allowed s₀ (e :: es) s :=
  (Run.snoc Run.nil hallowed hstep).trans hrun

theorem Run.of_snoc (hrun : Run step allowed s₀ (es ++ [e]) s') :
    ∃ s, Run step allowed s₀ es s ∧ allowed s e ∧ step s e = some s' := by
  generalize hlist : es ++ [e] = all at hrun
  cases hrun with
  | nil => exact absurd hlist (List.concat_ne_nil e es)
  | snoc hrun hallowed hstep =>
      rcases List.append_inj' hlist rfl with ⟨rfl, heq⟩
      rcases List.singleton_inj.1 heq with rfl
      exact ⟨_, hrun, hallowed, hstep⟩

/-- A list of events has one end. -/
theorem Run.end_unique (hrun : Run step allowed s₀ es s) (hrun' : Run step allowed' s₀ es s') :
    s = s' := by
  induction hrun generalizing s' with
  | nil =>
      generalize hlist : ([] : List ε) = empty at hrun'
      cases hrun' with
      | nil => rfl
      | snoc _ _ _ => exact absurd hlist.symm (List.concat_ne_nil _ _)
  | snoc _ _ hstep ih =>
      rcases hrun'.of_snoc with ⟨t, hrun', -, hstep'⟩
      rcases ih hrun' with rfl
      exact Option.some_inj.1 (hstep.symm.trans hstep')

/-- One more step, in a run whose steps may have to meet another condition. -/
theorem Run.snoc_iff (hrun : Run step allowed s₀ es s) (hstep : step s e = some s') :
    Run step allowed' s₀ (es ++ [e]) s' ↔ Run step allowed' s₀ es s ∧ allowed' s e := by
  constructor
  · intro hrun'
    rcases hrun'.of_snoc with ⟨t, hrun', hallowed, -⟩
    rcases hrun.end_unique hrun' with rfl
    exact ⟨hrun', hallowed⟩
  · rintro ⟨hrun', hallowed⟩
    exact hrun'.snoc hallowed hstep

/-- A measure that no step raises, that the good steps keep and all others lower, is at the end what
it was at the start just when every step of the run was good.  Only the good steps need keep `Q`,
which they rely on. -/
theorem Run.measure_eq_iff {M : Type*} [PartialOrder M] {good : σ → ε → Prop} (P Q : σ → Prop)
    (μ : σ → M) (hstart : P s₀ ∧ Q s₀)
    (hkeep : ∀ s e s', P s → allowed s e → step s e = some s' → P s' ∧ μ s' ≤ μ s)
    (hgood : ∀ s e s', P s → Q s → good s e → step s e = some s' → Q s' ∧ μ s' = μ s)
    (hbad : ∀ s e s', P s → Q s → ¬ good s e → step s e = some s' → μ s' < μ s)
    (hrun : Run step allowed s₀ es s) : μ s = μ s₀ ↔ Run step good s₀ es s := by
  have hsplit : (Run step good s₀ es s ∧ Q s ∧ μ s = μ s₀) ∨
      (¬ Run step good s₀ es s ∧ μ s < μ s₀) := by
    induction hrun with
    | nil => exact Or.inl ⟨Run.nil, hstart.2, rfl⟩
    | @snoc es s s' e hrun hallowed hstep ih =>
        have hP : P s := hrun.invariant P hstart.1
          fun s e s' hs he hstep => (hkeep s e s' hs he hstep).1
        rw [hrun.snoc_iff hstep]
        rcases ih with ⟨hall, hQ, heq⟩ | ⟨hnot, hlt⟩
        · by_cases he : good s e
          · rcases hgood s e s' hP hQ he hstep with ⟨hQ', hsame⟩
            exact Or.inl ⟨⟨hall, he⟩, hQ', hsame.trans heq⟩
          · exact Or.inr ⟨fun hboth => he hboth.2, heq ▸ hbad s e s' hP hQ he hstep⟩
        · have hle := (hkeep s e s' hP hallowed hstep).2
          exact Or.inr ⟨fun hboth => hnot hboth.1, hle.trans_lt hlt⟩
  rcases hsplit with ⟨hall, -, heq⟩ | ⟨hnot, hlt⟩
  · exact iff_of_true heq hall
  · exact iff_of_false hlt.ne hnot

/-- Carry out a list of events, checking that each is allowed. -/
def replay (step : σ → ε → Option σ) (allowed : σ → ε → Prop) [∀ s e, Decidable (allowed s e)] :
    List ε → σ → Option σ
  | [], s => some s
  | e :: es, s => if allowed s e then (step s e).bind (replay step allowed es) else none

theorem run_of_replay [∀ s e, Decidable (allowed s e)]
    (h : replay step allowed es s₀ = some s) : Run step allowed s₀ es s := by
  induction es generalizing s₀ with
  | nil =>
      cases h
      exact Run.nil
  | cons e es ih =>
      by_cases hallowed : allowed s₀ e
      · rw [replay, if_pos hallowed] at h
        rcases Option.bind_eq_some_iff.1 h with ⟨s₁, hstep, h⟩
        exact Run.cons hallowed hstep (ih h)
      · rw [replay, if_neg hallowed] at h
        cases h

end Execution
