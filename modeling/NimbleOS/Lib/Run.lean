/-!
# Run

Finite runs of a labelled transition relation.  `Run Step s es s'` says that the
events `es`, in this order, lead from `s` to `s'`; the theorems are the rules
that turn a fact about one step into a fact about whole runs.
-/

/-- The events `es` lead from the first state to the second. -/
inductive Run (Step : σ → ε → σ → Prop) : σ → List ε → σ → Prop where
  | nil (s : σ) : Run Step s [] s
  | cons : Step s e s' → Run Step s' es s'' → Run Step s (e :: es) s''

namespace Run

variable {Step : σ → ε → σ → Prop}

theorem single (h : Step s e s') : Run Step s [e] s' := .cons h (.nil s')

/-- Runs compose. -/
theorem append (h : Run Step s es s') (h' : Run Step s' es' s'') :
    Run Step s (es ++ es') s'' := by
  induction h with
  | nil => exact h'
  | cons hstep _ ih => exact .cons hstep (ih h')

/-- A run over an appended list passes through a middle state. -/
theorem of_append (h : Run Step s (es ++ es') s'') :
    ∃ s', Run Step s es s' ∧ Run Step s' es' s'' := by
  induction es generalizing s with
  | nil => exact ⟨s, .nil s, h⟩
  | cons e es ih =>
      cases h with
      | cons hstep hrest =>
          obtain ⟨s', hpre, hpost⟩ := ih hrest
          exact ⟨s', .cons hstep hpre, hpost⟩

/-- **Invariant rule**: what every step preserves holds at the end of a run. -/
theorem invariant (Inv : σ → Prop) (hstep : ∀ s e s', Inv s → Step s e s' → Inv s')
    (h : Run Step s es s') (h0 : Inv s) : Inv s' := by
  induction h with
  | nil => exact h0
  | cons hs _ ih => exact ih (hstep _ _ _ h0 hs)

/-- **Simulation rule**: if every step has a counterpart, so has every run. -/
theorem simulate {StepA : τ → ε → τ → Prop} (R : σ → τ → Prop)
    (hstep : ∀ s t e s', R s t → Step s e s' → ∃ t', StepA t e t' ∧ R s' t')
    (h : Run Step s es s') (hr : R s t) : ∃ t', Run StepA t es t' ∧ R s' t' := by
  induction h generalizing t with
  | nil => exact ⟨t, .nil t, hr⟩
  | cons hs _ ih =>
      obtain ⟨t', hstep', hr'⟩ := hstep _ _ _ _ hr hs
      obtain ⟨t'', hrun, hr''⟩ := ih hr'
      exact ⟨t'', .cons hstep' hrun, hr''⟩

/-- `P` holds at every step of the run over `es` from `s`: of the state before
the step and its event. -/
def Always (Step : σ → ε → σ → Prop) (P : σ → ε → Prop) (s : σ) (es : List ε) : Prop :=
  ∀ pre e post t, es = pre ++ e :: post → Run Step s pre t → P t e

theorem always_nil {P : σ → ε → Prop} : Always Step P s [] := by
  intro pre e post t heq
  simp at heq

theorem Always.head {P : σ → ε → Prop} (h : Always Step P s (e :: es)) : P s e :=
  h [] e es s rfl (.nil s)

theorem Always.tail {P : σ → ε → Prop} (h : Always Step P s (e :: es)) (hstep : Step s e s') :
    Always Step P s' es := by
  intro pre e' post t heq hrun
  exact h (e :: pre) e' post t (by rw [heq, List.cons_append]) (.cons hstep hrun)

theorem Always.cons {P : σ → ε → Prop} (h : P s e)
    (hrest : ∀ s', Step s e s' → Always Step P s' es) : Always Step P s (e :: es) := by
  intro pre e' post t heq hrun
  cases pre with
  | nil =>
      obtain ⟨rfl, -⟩ := List.cons.inj heq
      cases hrun
      exact h
  | cons e₀ pre =>
      obtain ⟨rfl, htail⟩ := List.cons.inj heq
      cases hrun with
      | cons hs hr => exact hrest _ hs pre e' post t htail hr

/-- The simulation rule where a condition holds of every step. -/
theorem simulate_always {StepA : τ → ε → τ → Prop} {P : σ → ε → Prop} (R : σ → τ → Prop)
    (hstep : ∀ s t e s', R s t → P s e → Step s e s' → ∃ t', StepA t e t' ∧ R s' t')
    (h : Run Step s es s') (hall : Always Step P s es) (hr : R s t) :
    ∃ t', Run StepA t es t' ∧ R s' t' := by
  induction h generalizing t with
  | nil => exact ⟨t, .nil t, hr⟩
  | cons hs _ ih =>
      obtain ⟨t', hstep', hr'⟩ := hstep _ _ _ _ hr hall.head hs
      obtain ⟨t'', hrun, hr''⟩ := ih (hall.tail hs) hr'
      exact ⟨t'', .cons hstep' hrun, hr''⟩

/-- Of a deterministic relation, `Always` is checked step by step. -/
theorem always_cons {P : σ → ε → Prop} (hdet : ∀ t, Step s e t → t = s')
    (hstep : Step s e s') : Always Step P s (e :: es) ↔ P s e ∧ Always Step P s' es := by
  constructor
  · intro h
    exact ⟨h.head, h.tail hstep⟩
  · rintro ⟨hhere, hrest⟩
    exact .cons hhere fun t ht => hdet t ht ▸ hrest

/-- Two conditions that say the same wherever an invariant holds, if either of them keeps the
invariant. -/
theorem always_congr {P Q : σ → ε → Prop} (Inv : σ → Prop) (hPQ : ∀ s e, Inv s → (P s e ↔ Q s e))
    (hstep : ∀ s e s', Inv s → Q s e → Step s e s' → Inv s') (h : Inv s) :
    Always Step P s es ↔ Always Step Q s es := by
  induction es generalizing s with
  | nil => exact iff_of_true always_nil always_nil
  | cons e es ih =>
      have hhead := hPQ s e h
      exact ⟨fun hall => .cons (hhead.mp hall.head) fun s' hs =>
          (ih (hstep s e s' h (hhead.mp hall.head) hs)).mp (hall.tail hs),
        fun hall => .cons (hhead.mpr hall.head) fun s' hs =>
          (ih (hstep s e s' h hall.head hs)).mpr (hall.tail hs)⟩

end Run
