/-!
# Relate

Two computations that can fail, side by side.  `Relates R x y` says that both fail, or
that both return and `R` holds of what they return; its rules follow the way in which
computations are put together.  `Agrees R x y` says the same of computations that fail
in the same way.
-/

/-- Both computations fail, or both return related values. -/
inductive Relates (R : α → β → Prop) : Except ε α → Except ε β → Prop where
  | ok : R a b → Relates R (.ok a) (.ok b)
  | error : Relates R (.error e) (.error e')

namespace Relates

variable {R : α → β → Prop} {x : Except ε α} {y : Except ε β}

/-- The same continuation of related values. -/
theorem bind {S : γ → δ → Prop} {f : α → Except ε γ} {g : β → Except ε δ} (h : Relates R x y)
    (hfg : ∀ a b, x = .ok a → y = .ok b → R a b → Relates S (f a) (g b)) :
    Relates S (x >>= f) (y >>= g) := by
  cases h with
  | ok hab => exact hfg _ _ rfl rfl hab
  | error => exact .error

/-- Where one computation returns, so does the other. -/
theorem of_ok {a : α} (h : Relates R (.ok a) y) : ∃ b, y = .ok b ∧ R a b := by
  cases h with
  | ok hab => exact ⟨_, rfl, hab⟩

end Relates

/-- Both computations fail in the same way, or both return related values. -/
inductive Agrees (R : α → β → Prop) : Except ε α → Except ε β → Prop where
  | ok : R a b → Agrees R (.ok a) (.ok b)
  | error : Agrees R (.error e) (.error e)

namespace Agrees

variable {R : α → β → Prop} {x : Except ε α} {y : Except ε β}

/-- The same continuation of related values. -/
theorem bind {S : γ → δ → Prop} {f : α → Except ε γ} {g : β → Except ε δ} (h : Agrees R x y)
    (hfg : ∀ a b, x = .ok a → y = .ok b → R a b → Agrees S (f a) (g b)) :
    Agrees S (x >>= f) (y >>= g) := by
  cases h with
  | ok hab => exact hfg _ _ rfl rfl hab
  | error => exact .error

end Agrees
