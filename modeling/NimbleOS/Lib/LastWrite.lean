import Mathlib.Data.List.Induction

/-!
# LastWrite

A state with several fields that a sequence of steps updates.  `LastWrite.last f` is what
the last step that writes the field gives it; a field that no other step touches has this
value at the end, whatever the other fields do.  A field that some steps clear has it
exactly if no such step comes after the last write, or that write was itself a clearing.
-/

namespace LastWrite

/-- What the last element that writes writes. -/
def last (f : α → Option β) (xs : List α) : Option β := (xs.filterMap f).getLast?

theorem last_cons (f : α → Option β) (x : α) (xs : List α) :
    last f (x :: xs) = (last f xs).or (f x) := by
  rw [last]
  cases hx : f x with
  | none =>
      rw [List.filterMap_cons_none hx, Option.or_none]
      rfl
  | some b =>
      rw [List.filterMap_cons_some hx, List.getLast?_cons, last]
      cases (xs.filterMap f).getLast? <;> rfl

theorem last_snoc (f : α → Option β) (xs : List α) (x : α) :
    last f (xs ++ [x]) = (f x).or (last f xs) := by
  rw [last, List.filterMap_append]
  cases hx : f x with
  | none =>
      rw [List.filterMap_cons_none hx, List.filterMap_nil, List.append_nil]
      rfl
  | some b =>
      rw [List.filterMap_cons_some hx, List.filterMap_nil, List.getLast?_concat]
      rfl

theorem last_map (f : α → Option β) (g : β → γ) (xs : List α) :
    last (fun x => (f x).map g) xs = (last f xs).map g := by
  rw [last, last, ← List.getLast?_map, List.map_filterMap]

section

variable {step : σ → α → σ} (field : σ → β) {f : α → Option β}

/-- **Last write wins**, for a field that only its own steps touch. -/
theorem foldl_field (hstep : ∀ s x, field (step s x) = (f x).getD (field s)) (xs : List α) (s : σ) :
    field (xs.foldl step s) = (last f xs).getD (field s) := by
  induction xs using List.reverseRecOn with
  | nil => rfl
  | append_singleton xs x ih =>
      rw [List.foldl_append, List.foldl_cons, List.foldl_nil, hstep, ih, last_snoc]
      cases f x <;> rfl

/-- The same of steps that can fail, where they do not. -/
theorem foldlM_field {step : σ → α → Except ε σ} (field : σ → β) {f : α → Option β}
    (hstep : ∀ s x s', step s x = .ok s' → field s' = (f x).getD (field s))
    (h : xs.foldlM step s = .ok s') : field s' = (last f xs).getD (field s) := by
  induction xs generalizing s with
  | nil =>
      obtain rfl : s = s' := Except.ok.inj h
      rfl
  | cons x xs ih =>
      rw [List.foldlM_cons] at h
      cases hx : step s x with
      | error e =>
          rw [hx] at h
          cases h
      | ok s₁ =>
          rw [hx] at h
          rw [ih h, hstep s x s₁ hx, last_cons]
          cases last f xs <;> rfl

/-- If no step fails, no sequence does. -/
theorem exists_foldlM_ok {step : σ → α → Except ε σ} (hstep : ∀ s x, ∃ s', step s x = .ok s')
    (xs : List α) (s : σ) : ∃ s', xs.foldlM step s = .ok s' := by
  induction xs generalizing s with
  | nil => exact ⟨s, rfl⟩
  | cons x xs ih =>
      obtain ⟨s₁, hx⟩ := hstep s x
      obtain ⟨s', hrest⟩ := ih s₁
      refine ⟨s', ?_⟩
      rw [List.foldlM_cons, hx]
      exact hrest

end

theorem last_append (f : α → Option β) (xs ys : List α) :
    last f (xs ++ ys) = (last f ys).or (last f xs) := by
  rw [last, List.filterMap_append, List.getLast?_append]
  rfl

theorem last_cons_none {f : α → Option β} (hx : f x = none) (xs : List α) :
    last f (x :: xs) = last f xs := by
  rw [last, List.filterMap_cons_none hx]
  rfl

/-- Where an element can stand in a list with one more element at the end. -/
theorem forall_snoc {P : List α → α → List α → Prop} :
    (∀ pre x post, xs ++ [y] = pre ++ x :: post → P pre x post) ↔
      P xs y [] ∧ ∀ pre x post, xs = pre ++ x :: post → P pre x (post ++ [y]) := by
  constructor
  · intro h
    exact ⟨h xs y [] rfl, fun pre x post heq => h pre x (post ++ [y]) (by simp [heq])⟩
  · rintro ⟨hlast, hrest⟩ pre x post heq
    rcases List.eq_nil_or_concat post with rfl | ⟨post, z, rfl⟩
    · obtain ⟨rfl, hxy⟩ := List.append_inj' heq rfl
      obtain rfl : y = x := (List.cons.inj hxy).1
      exact hlast
    · rw [List.concat_eq_append, ← List.cons_append, ← List.append_assoc] at heq
      obtain ⟨hxs, hyz⟩ := List.append_inj' heq rfl
      obtain rfl : y = z := (List.cons.inj hyz).1
      rw [List.concat_eq_append]
      exact hrest pre x post hxs

section

variable (step : σ → α → σ) (field : σ → Bool) (f : α → Option Bool) (clears : α → Prop)
  [DecidablePred clears]

/-- No clearing comes after a last write of `true`. -/
def Kept (f : α → Option Bool) (clears : α → Prop) (xs : List α) : Prop :=
  ∀ pre x post, xs = pre ++ x :: post →
    f x = none → clears x → last f pre = some true → last f post ≠ none

/-- **A field that other steps clear** has its last value exactly if it is kept. -/
theorem foldl_cleared_iff
    (hwrite : ∀ s x b, f x = some b → field (step s x) = b)
    (hclear : ∀ s x, f x = none → clears x → field (step s x) = false)
    (hsame : ∀ s x, f x = none → ¬ clears x → field (step s x) = field s)
    (hs : field s = false) (xs : List α) :
    field (xs.foldl step s) = (last f xs).getD false ↔ Kept f clears xs := by
  induction xs using List.reverseRecOn with
  | nil =>
      refine iff_of_true hs fun pre x post heq => ?_
      simp at heq
  | append_singleton xs y ih =>
      rw [List.foldl_append, List.foldl_cons, List.foldl_nil, last_snoc, Kept, forall_snoc]
      cases hy : f y with
      | some b =>
          rw [hwrite _ _ b hy]
          refine iff_of_true rfl ⟨fun hnone => ?_, fun pre x post _ _ _ _ => ?_⟩
          · cases hnone
          · rw [last_snoc, hy]
            exact Option.some_ne_none b
      | none =>
          rw [Option.none_or]
          simp only [last_snoc, hy, Option.none_or, true_implies]
          by_cases hc : clears y
          · rw [hclear _ _ hy hc]
            constructor
            · intro hoff
              have hnot : last f xs ≠ some true := fun hon => by rw [hon] at hoff; cases hoff
              refine ⟨fun _ hon => absurd hon hnot, fun pre x post heq hx _ hon hnone => hnot ?_⟩
              rw [heq, last_append, last_cons_none hx, hnone, hon]
              rfl
            · rintro ⟨hnot, -⟩
              cases hlast : last f xs with
              | none => rfl
              | some b =>
                  cases b with
                  | false => rfl
                  | true => exact absurd rfl (hnot hc hlast)
          · rw [hsame _ _ hy hc, ih]
            exact ⟨fun h => ⟨fun hc' => absurd hc' hc, h⟩, fun h => h.2⟩

end

end LastWrite
