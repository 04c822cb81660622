/-!
# Stream

Programs that consume a stream, one element after the other: `xs.foldlM f s` for a step
`f` that can fail.  An abstract machine with the total step `next` follows the same
stream; the rules relate what holds after every prefix of the stream to what each step
needs.
-/

namespace Stream

section

variable {f : σ → α → Except ε σ}

theorem foldlM_cons_ok (h : f s x = .ok s') (xs : List α) :
    (x :: xs).foldlM f s = xs.foldlM f s' := by
  rw [List.foldlM_cons, h]
  rfl

theorem foldlM_cons_error (h : f s x = .error e) (xs : List α) :
    (x :: xs).foldlM f s = .error e := by
  rw [List.foldlM_cons, h]
  rfl

theorem foldlM_append_ok (h : xs.foldlM f s = .ok s') (ys : List α) :
    (xs ++ ys).foldlM f s = ys.foldlM f s' := by
  rw [List.foldlM_append, h]
  rfl

/-- Every element of the stream meets `Cond`, in the states that the stream has led to. -/
def EachStep (f : σ → α → Except ε σ) (next : π → α → π) (Cond : π → σ → α → Prop) (p : π) (s : σ)
    (xs : List α) : Prop :=
  ∀ pre x post s', xs = pre ++ x :: post → pre.foldlM f s = .ok s' →
    Cond (pre.foldl next p) s' x

variable {next : π → α → π} {Cond : π → σ → α → Prop}

theorem eachStep_nil : EachStep f next Cond p s [] := by
  intro pre x post s' heq
  simp at heq

/-- The condition is met at the head, and then along the tail. -/
theorem eachStep_cons (h : f s x = .ok s') :
    EachStep f next Cond p s (x :: xs) ↔ Cond p s x ∧ EachStep f next Cond (next p x) s' xs := by
  constructor
  · intro hall
    refine ⟨hall [] x xs s rfl rfl, fun pre y post t heq hrun => ?_⟩
    exact hall (x :: pre) y post t (by rw [heq, List.cons_append])
      (by rw [foldlM_cons_ok h, hrun])
  · rintro ⟨hhere, hrest⟩ pre y post t heq hrun
    cases pre with
    | nil =>
        obtain ⟨rfl, -⟩ := List.cons.inj heq
        cases hrun
        exact hhere
    | cons x₀ pre =>
        obtain ⟨rfl, htail⟩ := List.cons.inj heq
        rw [foldlM_cons_ok h] at hrun
        exact hrest pre y post t htail hrun

/-- After every prefix of the stream the program has returned, in a state with `Good`. -/
def AllPrefixes (f : σ → α → Except ε σ) (Good : σ → Prop) (s : σ) (xs : List α) : Prop :=
  ∀ pre, pre <+: xs → ∃ s', pre.foldlM f s = .ok s' ∧ Good s'

theorem allPrefixes_cons {Good : σ → Prop} (h : f s x = .ok s') :
    AllPrefixes f Good s (x :: xs) ↔ Good s ∧ AllPrefixes f Good s' xs := by
  constructor
  · intro hall
    refine ⟨?_, fun pre hpre => ?_⟩
    · obtain ⟨t, hrun, hgood⟩ := hall [] List.nil_prefix
      cases hrun
      exact hgood
    · obtain ⟨t, hrun, hgood⟩ := hall (x :: pre) (List.cons_prefix_cons.mpr ⟨rfl, hpre⟩)
      exact ⟨t, by rw [← hrun, foldlM_cons_ok h], hgood⟩
  · rintro ⟨hhere, hrest⟩ pre hpre
    cases pre with
    | nil => exact ⟨s, rfl, hhere⟩
    | cons x₀ pre =>
        obtain ⟨rfl, htail⟩ := List.cons_prefix_cons.mp hpre
        obtain ⟨t, hrun, hgood⟩ := hrest pre htail
        exact ⟨t, by rw [foldlM_cons_ok h, hrun], hgood⟩

/-- **Exact conditions**: if a step meets its condition exactly when it keeps the
invariant, and otherwise fails or leads to a state that is not good, then all steps of a
stream meet theirs exactly when every prefix leads to a good state. -/
theorem allPrefixes_iff_eachStep {Good : σ → Prop} (Inv : π → σ → Prop)
    (hgood : ∀ p s, Inv p s → Good s)
    (hstep : ∀ p s x, Inv p s → Cond p s x → ∃ s', f s x = .ok s' ∧ Inv (next p x) s')
    (hbad : ∀ p s x s', Inv p s → ¬ Cond p s x → f s x = .ok s' → ¬ Good s')
    (h : Inv p s) (xs : List α) :
    AllPrefixes f Good s xs ↔ EachStep f next Cond p s xs := by
  induction xs generalizing p s with
  | nil =>
      refine ⟨fun _ => eachStep_nil, fun _ pre hpre => ?_⟩
      rw [List.prefix_nil.mp hpre]
      exact ⟨s, rfl, hgood p s h⟩
  | cons x xs ih =>
      by_cases hcond : Cond p s x
      · obtain ⟨s', hf, hinv⟩ := hstep p s x h hcond
        rw [allPrefixes_cons hf, eachStep_cons hf, ih hinv, and_iff_right hcond,
          and_iff_right (hgood p s h)]
      · refine iff_of_false (fun hall => ?_) fun hall => hcond (hall [] x xs s rfl rfl)
        obtain ⟨s', hrun, hs'⟩ := hall [x] ⟨xs, rfl⟩
        cases hf : f s x with
        | error e =>
            rw [foldlM_cons_error hf] at hrun
            cases hrun
        | ok t =>
            rw [foldlM_cons_ok hf] at hrun
            cases hrun
            exact hbad p s x _ h hcond hf hs'

/-- The same for a condition that only looks at the abstract machine: it can be checked on
the stream alone. -/
theorem allPrefixes_iff_text {Good : σ → Prop} (Cond : π → α → Prop) (Inv : π → σ → Prop)
    (hgood : ∀ p s, Inv p s → Good s)
    (hstep : ∀ p s x, Inv p s → Cond p x → ∃ s', f s x = .ok s' ∧ Inv (next p x) s')
    (hbad : ∀ p s x s', Inv p s → ¬ Cond p x → f s x = .ok s' → ¬ Good s')
    (h : Inv p s) (xs : List α) :
    AllPrefixes f Good s xs ↔ ∀ pre x post, xs = pre ++ x :: post → Cond (pre.foldl next p) x := by
  rw [allPrefixes_iff_eachStep Inv hgood hstep hbad h]
  constructor
  · intro hall
    induction xs generalizing p s with
    | nil => exact fun pre x post heq => by simp at heq
    | cons x xs ih =>
        have hcond := hall [] x xs s rfl rfl
        obtain ⟨s', hf, hinv⟩ := hstep p s x h hcond
        intro pre y post heq
        cases pre with
        | nil =>
            obtain ⟨rfl, -⟩ := List.cons.inj heq
            exact hcond
        | cons x₀ pre =>
            obtain ⟨rfl, htail⟩ := List.cons.inj heq
            exact ih hinv ((eachStep_cons hf).mp hall).2 pre y post htail
  · exact fun hall pre x post s' heq _ => hall pre x post heq

/-- The program keeps its invariant with the abstract machine. -/
theorem foldlM_inv {xs : List α} (Inv : π → σ → Prop)
    (hstep : ∀ p s x s', Inv p s → f s x = .ok s' → Inv (next p x) s') (h : Inv p s)
    (hrun : xs.foldlM f s = .ok s') : Inv (xs.foldl next p) s' := by
  induction xs generalizing p s with
  | nil =>
      cases hrun
      exact h
  | cons x xs ih =>
      cases hf : f s x with
      | error e =>
          rw [foldlM_cons_error hf] at hrun
          cases hrun
      | ok t =>
          rw [foldlM_cons_ok hf] at hrun
          exact ih (hstep p s x t h hf) hrun

/-- An invariant of the program alone. -/
theorem foldlM_keeps {xs : List α} (Inv : σ → Prop)
    (hstep : ∀ s x s', Inv s → f s x = .ok s' → Inv s') (h : Inv s)
    (hrun : xs.foldlM f s = .ok s') : Inv s' := by
  have hinv := @foldlM_inv _ _ _ Unit f (fun p _ => p) () s s' xs (fun _ t => Inv t)
    (fun _ t x t' ht hf => hstep t x t' ht hf) h hrun
  exact hinv

/-- **Which streams the program takes**: those whose elements all meet the condition that a
step needs to return. -/
theorem foldlM_ok_iff (Cond : π → α → Prop) (Inv : π → σ → Prop)
    (hstep : ∀ p s x, Inv p s → Cond p x → ∃ s', f s x = .ok s' ∧ Inv (next p x) s')
    (hbad : ∀ p s x, Inv p s → ¬ Cond p x → ∃ e, f s x = .error e) (h : Inv p s) (xs : List α) :
    (∃ s', xs.foldlM f s = .ok s') ↔
      ∀ pre x post, xs = pre ++ x :: post → Cond (pre.foldl next p) x := by
  induction xs generalizing p s with
  | nil => exact iff_of_true ⟨s, rfl⟩ fun pre x post heq => by simp at heq
  | cons x xs ih =>
      by_cases hcond : Cond p x
      · obtain ⟨s', hf, hinv⟩ := hstep p s x h hcond
        rw [foldlM_cons_ok hf, ih hinv]
        constructor
        · intro hall pre y post heq
          cases pre with
          | nil =>
              obtain ⟨rfl, -⟩ := List.cons.inj heq
              exact hcond
          | cons x₀ pre =>
              obtain ⟨rfl, htail⟩ := List.cons.inj heq
              exact hall pre y post htail
        · intro hall pre y post heq
          exact hall (x :: pre) y post (by rw [heq, List.cons_append])
      · obtain ⟨e, hf⟩ := hbad p s x h hcond
        rw [foldlM_cons_error hf]
        exact iff_of_false (fun hok => by cases hok.choose_spec) fun hall => hcond (hall [] x xs rfl)

/-- The same for a condition that looks at the element alone. -/
theorem foldlM_ok_iff_all (Cond : α → Prop) (hok : ∀ s x, Cond x → ∃ s', f s x = .ok s')
    (hbad : ∀ s x, ¬ Cond x → ∃ e, f s x = .error e) (s : σ) (xs : List α) :
    (∃ s', xs.foldlM f s = .ok s') ↔ ∀ x ∈ xs, Cond x := by
  induction xs generalizing s with
  | nil => exact iff_of_true ⟨s, rfl⟩ fun x hx => by cases hx
  | cons x xs ih =>
      rw [List.forall_mem_cons]
      by_cases hcond : Cond x
      · obtain ⟨s', hf⟩ := hok s x hcond
        rw [foldlM_cons_ok hf, ih, and_iff_right hcond]
      · obtain ⟨e, hf⟩ := hbad s x hcond
        rw [foldlM_cons_error hf]
        exact iff_of_false (fun h => by cases h.choose_spec) fun h => hcond h.1

/-! ## two runs of one program -/

/-- The same element for two states. -/
def both (f : σ → α → Except ε σ) (s : σ × σ) (x : α) : Except ε (σ × σ) :=
  f s.1 x >>= fun t => f s.2 x >>= fun t' => .ok (t, t')

theorem both_ok (h : f s x = .ok t) (h' : f s' x = .ok t') : both f (s, s') x = .ok (t, t') := by
  rw [both, h]
  simp only [bind, Except.bind, h']

theorem both_ok_iff : both f (s, s') x = .ok p ↔ f s x = .ok p.1 ∧ f s' x = .ok p.2 := by
  constructor
  · intro h
    cases ht : f s x with
    | error e =>
        rw [both, ht] at h
        cases h
    | ok t =>
        cases ht' : f s' x with
        | error e =>
            simp only [both, ht, ht', bind, Except.bind] at h
            cases h
        | ok t' =>
            rw [both_ok ht ht'] at h
            cases h
            exact ⟨rfl, rfl⟩
  · exact fun h => both_ok h.1 h.2

/-- Side by side, the two runs are those of the program. -/
theorem foldlM_both_iff {xs : List α} :
    xs.foldlM (both f) (s, s') = .ok p ↔ xs.foldlM f s = .ok p.1 ∧ xs.foldlM f s' = .ok p.2 := by
  induction xs generalizing s s' with
  | nil =>
      obtain ⟨t, t'⟩ := p
      simp [pure, Except.pure]
  | cons x xs ih =>
      cases ht : f s x with
      | error e =>
          rw [foldlM_cons_error (f := f) ht]
          have hboth : both f (s, s') x = .error e := by
            rw [both, ht]
            rfl
          rw [foldlM_cons_error hboth]
          exact iff_of_false (fun h => by cases h) fun h => by cases h.1
      | ok t =>
          rw [foldlM_cons_ok (f := f) ht]
          cases ht' : f s' x with
          | error e =>
              rw [foldlM_cons_error (f := f) ht']
              have hboth : both f (s, s') x = .error e := by
                simp only [both, ht, ht', bind, Except.bind]
              rw [foldlM_cons_error hboth]
              exact iff_of_false (fun h => by cases h) fun h => by cases h.2
          | ok t' => rw [foldlM_cons_ok (f := f) ht', foldlM_cons_ok (both_ok ht ht'), ih]

end

end Stream
