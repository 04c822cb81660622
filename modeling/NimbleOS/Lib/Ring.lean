import Mathlib.Data.List.Rotate

/-!
# Ring

Circular linked lists.  `next` gives the link of a cell; `IsRing next xs` says that the
links lead from the first cell of `xs` through the others, in their order, and back.  The
abstract counterpart of a ring is the list itself, up to rotation: the rules say which
changes of links insert a cell, turn the ring and take a cell out.
-/

namespace Ring

variable {next link : α → Option α}

/-- The links lead from `a` through `xs` to `b`. -/
def Leads (next : α → Option α) : α → List α → α → Prop
  | a, [], b => next a = some b
  | a, x :: xs, b => next a = some x ∧ Leads next x xs b

def IsRing (next : α → Option α) : List α → Prop
  | [] => True
  | a :: xs => Leads next a xs a

theorem leads_append : Leads next a (xs ++ y :: ys) b ↔ Leads next a xs y ∧ Leads next y ys b := by
  induction xs generalizing a with
  | nil => exact Iff.rfl
  | cons x xs ih => simp only [List.cons_append, Leads, ih, and_assoc]

/-- The same links, at the cells that are left. -/
theorem Leads.congr (h : Leads next a xs b) (hfirst : link a = next a)
    (hsame : ∀ x ∈ xs, link x = next x) : Leads link a xs b := by
  induction xs generalizing a with
  | nil => exact hfirst.trans h
  | cons x xs ih =>
      obtain ⟨hx, hxs⟩ := List.forall_mem_cons.mp hsame
      exact ⟨hfirst.trans h.1, ih h.2 hx hxs⟩

/-- The links lead one way. -/
theorem Leads.unique (h : Leads next a xs b) (h' : Leads next a ys b) (hxs : b ∉ xs) (hys : b ∉ ys) :
    xs = ys := by
  induction xs generalizing a ys with
  | nil =>
      cases ys with
      | nil => rfl
      | cons y ys =>
          obtain rfl := Option.some.inj (Eq.trans (Eq.symm h) h'.1)
          exact absurd List.mem_cons_self hys
  | cons x xs ih =>
      cases ys with
      | nil =>
          obtain rfl := Option.some.inj (Eq.trans (Eq.symm h') h.1)
          exact absurd List.mem_cons_self hxs
      | cons y ys =>
          obtain rfl := Option.some.inj (h.1.symm.trans h'.1)
          rw [ih h.2 h'.2 (fun hb => hxs (List.mem_cons_of_mem _ hb))
            fun hb => hys (List.mem_cons_of_mem _ hb)]

/-- Another cell with the link of the first one. -/
theorem Leads.move (h : Leads next a xs b) (hfirst : link a' = next a)
    (hsame : ∀ x ∈ xs, link x = next x) : Leads link a' xs b := by
  cases xs with
  | nil => exact hfirst.trans h
  | cons x xs =>
      obtain ⟨hx, hxs⟩ := List.forall_mem_cons.mp hsame
      exact ⟨hfirst.trans h.1, h.2.congr hx hxs⟩

/-- The link of the last cell is turned. -/
theorem Leads.turn (h : Leads next a xs b) (hnodup : (a :: xs).Nodup)
    (hlast : link ((a :: xs).getLast (List.cons_ne_nil a xs)) = some b')
    (hsame : ∀ x ∈ a :: xs, x ≠ (a :: xs).getLast (List.cons_ne_nil a xs) → link x = next x) :
    Leads link a xs b' := by
  induction xs generalizing a with
  | nil => exact hlast
  | cons x xs ih =>
      rw [List.getLast_cons (List.cons_ne_nil x xs)] at hlast hsame
      obtain ⟨ha, hxs⟩ := List.nodup_cons.mp hnodup
      have hne : a ≠ (x :: xs).getLast (List.cons_ne_nil x xs) := fun heq =>
        ha (heq ▸ List.getLast_mem _)
      refine ⟨(hsame a List.mem_cons_self hne).trans h.1, ih h.2 hxs hlast fun y hy => ?_⟩
      exact hsame y (List.mem_cons_of_mem a hy)

/-- Every cell of the path has a link. -/
theorem Leads.some (h : Leads next a xs b) (hx : x ∈ a :: xs) : ∃ y, next x = some y := by
  induction xs generalizing a with
  | nil => exact ⟨b, List.mem_singleton.mp hx ▸ h⟩
  | cons y xs ih =>
      rcases List.mem_cons.mp hx with rfl | hx
      · exact ⟨y, h.1⟩
      · exact ih h.2 hx

/-- The links of the path stay on it. -/
theorem Leads.closed (h : Leads next a xs b) (hx : x ∈ a :: xs) (hy : next x = Option.some y) :
    y ∈ xs ∨ y = b := by
  induction xs generalizing a with
  | nil =>
      obtain rfl := List.mem_singleton.mp hx
      exact .inr (Option.some.inj (hy.symm.trans h))
  | cons z xs ih =>
      rcases List.mem_cons.mp hx with rfl | hx
      · obtain rfl := Option.some.inj (hy.symm.trans h.1)
        exact .inl List.mem_cons_self
      · exact (ih h.2 hx).imp_left (List.mem_cons_of_mem z)

/-- What the first cell has, and the links hand on, all of them have. -/
theorem Leads.spread {P : α → Prop} (h : Leads next a xs b) (ha : P a)
    (hstep : ∀ x y, P x → next x = Option.some y → y ∈ a :: xs → P y) : ∀ x ∈ a :: xs, P x := by
  induction xs generalizing a with
  | nil => exact List.forall_mem_singleton.mpr ha
  | cons y xs ih =>
      have hy := hstep a y ha h.1 (List.mem_cons_of_mem a List.mem_cons_self)
      refine List.forall_mem_cons.mpr ⟨ha, ih h.2 hy fun x z hx hz hmem => ?_⟩
      exact hstep x z hx hz (List.mem_cons_of_mem a hmem)

/-- The link of the first cell leads to the head of the turned ring. -/
theorem IsRing.next_head (h : IsRing next (a :: xs)) :
    ∃ b ys, (a :: xs).rotate 1 = b :: ys ∧ next a = Option.some b := by
  cases xs with
  | nil => exact ⟨a, [], List.rotate_singleton a 1, h⟩
  | cons x xs => exact ⟨x, xs ++ [a], by simp, h.1⟩

theorem IsRing.some (h : IsRing next xs) (hx : x ∈ xs) : ∃ y, next x = Option.some y := by
  cases xs with
  | nil => cases hx
  | cons a xs => exact Leads.some h hx

theorem IsRing.closed (h : IsRing next xs) (hx : x ∈ xs) (hy : next x = Option.some y) : y ∈ xs := by
  cases xs with
  | nil => cases hx
  | cons a xs =>
      rcases Leads.closed h hx hy with hmem | rfl
      · exact List.mem_cons_of_mem a hmem
      · exact List.mem_cons_self

theorem IsRing.congr (h : IsRing next xs) (hsame : ∀ x ∈ xs, link x = next x) : IsRing link xs := by
  cases xs with
  | nil => trivial
  | cons a xs =>
      obtain ⟨ha, hxs⟩ := List.forall_mem_cons.mp hsame
      exact Leads.congr h ha hxs

/-! ## turning, inserting and taking out -/

theorem IsRing.rotate (h : IsRing next xs) : IsRing next (xs.rotate 1) := by
  match xs with
  | [] => trivial
  | [a] => rwa [List.rotate_singleton]
  | a :: x :: xs =>
      rw [List.rotate_cons_succ, List.rotate_zero, List.cons_append]
      exact leads_append.mpr ⟨h.2, h.1⟩

theorem IsRing.turns (h : IsRing next xs) (n : Nat) : IsRing next (xs.rotate n) := by
  induction n with
  | zero => rwa [List.rotate_zero]
  | succ n ih =>
      rw [← List.rotate_rotate]
      exact ih.rotate

/-- The abstract insertion, behind the first element. -/
def insert (p : α) : List α → List α
  | [] => [p]
  | a :: xs => a :: p :: xs

theorem perm_insert (p : α) (xs : List α) : (insert p xs).Perm (p :: xs) := by
  cases xs with
  | nil => exact .refl _
  | cons a xs => exact .swap _ _ _

theorem mem_insert : x ∈ insert p xs ↔ x = p ∨ x ∈ xs := by
  rw [(perm_insert p xs).mem_iff, List.mem_cons]

theorem nodup_insert : (insert p xs).Nodup ↔ p ∉ xs ∧ xs.Nodup := by
  rw [(perm_insert p xs).nodup_iff, List.nodup_cons]

theorem IsRing.insert (h : IsRing next (a :: xs)) (ha : link a = Option.some p)
    (hp : link p = next a) (hsame : ∀ x ∈ xs, link x = next x) : IsRing link (a :: p :: xs) :=
  ⟨ha, Leads.move h hp hsame⟩

/-- The first cell is taken out: the link of the last one, its predecessor, is turned to
the second one. -/
theorem IsRing.tail (h : IsRing next (a :: b :: xs)) (hnodup : (b :: xs).Nodup)
    (hlast : link ((b :: xs).getLast (List.cons_ne_nil b xs)) = Option.some b)
    (hsame : ∀ x ∈ b :: xs, x ≠ (b :: xs).getLast (List.cons_ne_nil b xs) → link x = next x) :
    IsRing link (b :: xs) := h.2.turn hnodup hlast hsame

/-! ## rounds -/

theorem head?_rotate_mod {xs : List α} (h : xs ≠ []) (i : Nat) :
    (xs.rotate i).head? = xs[i % xs.length]? := by
  rw [← List.rotate_mod, List.head?_rotate (Nat.mod_lt _ (List.length_pos_iff.mpr h))]

/-- As many turns as there are elements bring each one to the front exactly once. -/
theorem exists_unique_turn {xs : List α} (hnodup : xs.Nodup) (hx : x ∈ xs) :
    ∃! i, i < xs.length ∧ (xs.rotate (i + 1)).head? = some x := by
  have hne : xs ≠ [] := List.ne_nil_of_mem hx
  obtain ⟨j, hj, rfl⟩ := List.getElem_of_mem hx
  have hhead : ∀ i, i < xs.length → ((xs.rotate (i + 1)).head? = some xs[j] ↔
      j = if i + 1 = xs.length then 0 else i + 1) := by
    intro i hi
    have hmod : (i + 1) % xs.length = if i + 1 = xs.length then 0 else i + 1 := by
      split
      · next heq => rw [heq, Nat.mod_self]
      · exact Nat.mod_eq_of_lt (by omega)
    have hlt : (if i + 1 = xs.length then 0 else i + 1) < xs.length := by
      split <;> omega
    rw [head?_rotate_mod hne, hmod, List.getElem?_eq_getElem hlt, Option.some.injEq,
      hnodup.getElem_inj_iff, eq_comm]
  refine ⟨if j = 0 then xs.length - 1 else j - 1, ⟨?_, ?_⟩, fun i hi => ?_⟩
  · split <;> omega
  · rw [hhead _ (by split <;> omega)]
    split <;> split <;> omega
  · have heq := (hhead i hi.1).mp hi.2
    split at heq <;> split <;> omega

end Ring
