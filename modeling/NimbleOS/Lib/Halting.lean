import Mathlib.Logic.Basic

/-!
# Halting

Computations on a state that may halt.  A result in `Except` says nothing of the state in
which a computation halted; one in `Halting` has the state at its end in either case, so that
what each statement keeps holds however the computation ends.
-/

/-- A computation on `σ` that may halt with an `ε`. -/
abbrev Halting (σ ε α : Type) : Type := ExceptT ε (StateM σ) α

namespace Halting

variable {σ τ ε α β : Type}

/-- One statement.  Where it halts, its own effects are left out. -/
def step (f : σ → Except ε (α × σ)) : Halting σ ε α := fun s =>
  match f s with
  | .ok (a, s') => (.ok a, s')
  | .error e => (.error e, s)

/-- A computation on a part of the state. -/
def zoom (get : σ → τ) (set : σ → τ → σ) (x : Halting τ ε α) : Halting σ ε α := fun s =>
  ((x (get s)).1, set s (x (get s)).2)

/-- The state at the end. -/
def final (x : Halting σ ε α) (s : σ) : σ := (x s).2

/-- The result, without the state in which the computation halted. -/
def outcome (x : Halting σ ε α) (s : σ) : Except ε (α × σ) :=
  match x s with
  | (.ok a, s') => .ok (a, s')
  | (.error e, _) => .error e

/-! ## the binds -/

theorem bind_of_ok {x : Halting σ ε α} (f : α → Halting σ ε β) (h : x s = (.ok a, s')) :
    (x >>= f) s = f a s' := by
  change ExceptT.bindCont f (x s).1 (x s).2 = _
  rw [h]
  rfl

theorem bind_of_error {x : Halting σ ε α} (f : α → Halting σ ε β) (h : x s = (.error e, s')) :
    (x >>= f) s = (.error e, s') := by
  change ExceptT.bindCont f (x s).1 (x s).2 = _
  rw [h]
  rfl

/-! ## results -/

theorem outcome_step (f : σ → Except ε (α × σ)) (s : σ) : (step f).outcome s = f s := by
  unfold outcome step
  cases f s with
  | error e => rfl
  | ok r => rfl

theorem outcome_zoom (get : σ → τ) (set : σ → τ → σ) (x : Halting τ ε α) (s : σ) :
    (zoom get set x).outcome s = x.outcome (get s) >>= fun r => pure (r.1, set s r.2) := by
  unfold outcome zoom
  rcases x (get s) with ⟨e | a, t⟩ <;> rfl

theorem outcome_bind (x : Halting σ ε α) (f : α → Halting σ ε β) (s : σ) :
    (x >>= f).outcome s = x.outcome s >>= fun r => (f r.1).outcome r.2 := by
  rcases h : x s with ⟨e | a, s'⟩
  · rw [outcome, outcome, bind_of_error f h, h]
    rfl
  · have hx : x.outcome s = .ok (a, s') := by rw [outcome, h]
    rw [hx, outcome, bind_of_ok f h]
    rfl

theorem outcome_bind_of_ok {x : Halting σ ε α} (f : α → Halting σ ε β)
    (h : x.outcome s = .ok (a, s')) : (x >>= f).outcome s = (f a).outcome s' := by
  rw [outcome_bind, h]
  rfl

/-- `x` without the states in which it halts: `f`, which has no other result than the state. -/
def Computes (x : Halting σ ε Unit) (f : σ → Except ε σ) : Prop :=
  ∀ s, x.outcome s = f s >>= fun s' => pure ((), s')

/-- A statement without a result. -/
def run (f : σ → Except ε σ) : Halting σ ε Unit :=
  step fun s => f s >>= fun s' => pure ((), s')

theorem Computes.run (f : σ → Except ε σ) : Computes (run f) f := fun s => outcome_step _ s

theorem outcome_run_eq_ok {f : σ → Except ε σ} :
    (run f).outcome s = .ok (a, s') ↔ f s = .ok s' := by
  rw [Computes.run]
  cases f s with
  | error e => exact ⟨fun h => (nomatch h), fun h => (nomatch h)⟩
  | ok t => exact ⟨fun h => by cases h; rfl, fun h => by cases h; rfl⟩

theorem Computes.outcome_bind {x : Halting σ ε Unit} {f : σ → Except ε σ} (h : Computes x f)
    (y : Unit → Halting σ ε β) (s : σ) :
    (x >>= y).outcome s = f s >>= fun s' => (y ()).outcome s' := by
  rw [Halting.outcome_bind, h, bind_assoc]
  rfl

theorem Computes.bind {x y : Halting σ ε Unit} {f g : σ → Except ε σ} (hx : Computes x f)
    (hy : Computes y g) : Computes (x >>= fun _ => y) fun s => f s >>= g := by
  intro s
  rw [hx.outcome_bind, bind_assoc]
  exact bind_congr hy

/-! ## states -/

theorem eq_of_outcome {x : Halting σ ε α} (h : x.outcome s = .ok (a, s')) : x s = (.ok a, s') := by
  unfold outcome at h
  split at h
  · next heq =>
      cases h
      exact heq
  · contradiction

/-- A computation that does not halt ends in the state of its result. -/
theorem final_of_outcome {x : Halting σ ε α} (h : x.outcome s = .ok (a, s')) : x.final s = s' := by
  rw [final, eq_of_outcome h]

theorem Computes.outcome_of_ok {x : Halting σ ε Unit} {f : σ → Except ε σ} (h : Computes x f)
    (hf : f s = .ok s') : x.outcome s = .ok ((), s') := by
  rw [h, hf]
  rfl

theorem Computes.final_of_ok {x : Halting σ ε Unit} {f : σ → Except ε σ} (h : Computes x f)
    (hf : f s = .ok s') : x.final s = s' := final_of_outcome (h.outcome_of_ok hf)

theorem final_step_of_error {f : σ → Except ε (α × σ)} (h : f s = .error e) :
    (step f).final s = s := by
  unfold final step
  rw [h]

theorem final_zoom (get : σ → τ) (set : σ → τ → σ) (x : Halting τ ε α) (s : σ) :
    (zoom get set x).final s = set s (x.final (get s)) := rfl

section

variable {x : Halting σ ε α} (f : α → Halting σ ε β)

theorem final_bind_of_ok (h : x.outcome s = .ok (a, s')) : (x >>= f).final s = (f a).final s' := by
  rw [final, bind_of_ok f (eq_of_outcome h)]
  rfl

theorem final_bind_of_error (h : x.outcome s = .error e) : (x >>= f).final s = x.final s := by
  unfold outcome at h
  split at h
  · contradiction
  · next heq => rw [final, bind_of_error f heq, final, heq]

/-- What holds at the end of the first part, and from there at the end of the second. -/
theorem final_bind {Q : σ → Prop} (hx : Q (x.final s))
    (hf : ∀ a s', x.outcome s = .ok (a, s') → Q s' → Q ((f a).final s')) :
    Q ((x >>= f).final s) := by
  cases h : x.outcome s with
  | error e => rwa [final_bind_of_error f h]
  | ok r =>
      rw [final_of_outcome h] at hx
      rw [final_bind_of_ok f h]
      exact hf r.1 r.2 h hx

end

/-- What holds before a statement and of each of its results. -/
theorem final_step {Q : σ → Prop} {f : σ → Except ε (α × σ)} (hs : Q s)
    (hf : ∀ a s', f s = .ok (a, s') → Q s') : Q ((step f).final s) := by
  cases h : f s with
  | error e => rwa [final_step_of_error h]
  | ok r =>
      rw [final_of_outcome ((outcome_step f s).trans h)]
      exact hf r.1 r.2 h

theorem final_run {Q : σ → Prop} {f : σ → Except ε σ} (hs : Q s)
    (hf : ∀ s', f s = .ok s' → Q s') : Q ((run f).final s) := by
  refine final_step hs fun a s' hstep => ?_
  exact hf s' (outcome_run_eq_ok.mp ((outcome_step _ s).trans hstep))

/-- However the computation ends, `Q` holds if it did at the start. -/
def Keeps (Q : σ → Prop) (x : Halting σ ε α) : Prop := ∀ s, Q s → Q (x.final s)

namespace Keeps

variable {Q : σ → Prop}

theorem pure (a : α) : Keeps Q (Pure.pure a : Halting σ ε α) := fun _ hs => hs

theorem step {f : σ → Except ε (α × σ)} (h : ∀ s a s', Q s → f s = .ok (a, s') → Q s') :
    Keeps Q (Halting.step f) :=
  fun s hs => final_step hs fun a s' => h s a s' hs

theorem run {f : σ → Except ε σ} (h : ∀ s s', Q s → f s = .ok s' → Q s') :
    Keeps Q (Halting.run f) :=
  fun s hs => final_run hs fun s' => h s s' hs

theorem bind {x : Halting σ ε α} {f : α → Halting σ ε β} (hx : Keeps Q x)
    (hf : ∀ a, Keeps Q (f a)) : Keeps Q (x >>= f) :=
  fun s hs => final_bind f (hx s hs) fun a s' _ => hf a s'

end Keeps

/-- The computation halts, in a state with `Q`. -/
def Fails (Q : σ → Prop) (x : Halting σ ε α) (s : σ) : Prop :=
  ∃ e, x.outcome s = .error e ∧ Q (x.final s)

namespace Fails

variable {Q : σ → Prop} {x : Halting σ ε α} {f : α → Halting σ ε β}

theorem run {g : σ → Except ε σ} (hs : Q s) (h : g s = .error e) : Fails Q (run g) s := by
  have hstep : (g s >>= fun s' => pure ((), s')) = .error e := by
    rw [h]
    rfl
  exact ⟨e, (outcome_step _ s).trans hstep, by rwa [Halting.run, final_step_of_error hstep]⟩

theorem mono {Q' : σ → Prop} (h : Fails Q x s) (hQ : ∀ s', Q s' → Q' s') : Fails Q' x s := by
  obtain ⟨e, hx, hs⟩ := h
  exact ⟨e, hx, hQ _ hs⟩

/-- It halts in its first part. -/
theorem left (h : Fails Q x s) : Fails Q (x >>= f) s := by
  obtain ⟨e, hx, hs⟩ := h
  refine ⟨e, ?_, by rwa [final_bind_of_error f hx]⟩
  rw [outcome_bind, hx]
  rfl

/-- It halts behind its first part. -/
theorem of_ok (h : x.outcome s = .ok (a, s')) (hf : Fails Q (f a) s') : Fails Q (x >>= f) s := by
  obtain ⟨e, hx, hs⟩ := hf
  exact ⟨e, (outcome_bind_of_ok f h).trans hx, by rwa [final_bind_of_ok f h]⟩

/-- It halts in its first part or behind it. -/
theorem bind (hx : Q (x.final s))
    (hf : ∀ a s', x.outcome s = .ok (a, s') → Q s' → Fails Q (f a) s') : Fails Q (x >>= f) s := by
  cases h : x.outcome s with
  | error e => exact left ⟨e, h, hx⟩
  | ok r => exact of_ok h (hf r.1 r.2 h (final_of_outcome h ▸ hx))

end Fails

end Halting
