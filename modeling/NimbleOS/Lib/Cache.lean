import Mathlib.Logic.Function.Basic

/-!
# Cache

A cache of a lookup that changes under it.  The hardware fills and evicts entries on
its own; software that changes the lookup drops the entries it makes stale.
`Coherent` says that the cache holds no stale entry, except perhaps for a set of keys
that is being worked on; its rules say what each of these moves needs to keep it.
-/

/-- Keys to cached answers. -/
abbrev Cache (κ ν : Type) := κ → Option ν

/-- What the hardware does with one key on its own. -/
inductive CacheMove where
  | keep
  | evict
  | fill

namespace Cache

variable {κ ν : Type} {bad : κ → Prop} {look look' : κ → Option ν} {c : Cache κ ν}

def empty : Cache κ ν := fun _ => none

/-- The cache after the moves `m`.  Only a key for which `may` holds can be filled. -/
def move (c : Cache κ ν) (look : κ → Option ν) (may : κ → Bool) (m : κ → CacheMove) : Cache κ ν :=
  fun k =>
    match m k with
    | .keep => c k
    | .evict => none
    | .fill => if may k then look k else c k

/-- The cache without key `k`. -/
def drop [DecidableEq κ] (c : Cache κ ν) (k : κ) : Cache κ ν := Function.update c k none

/-- Away from `bad`, what the cache holds is what the lookup finds. -/
def Coherent (bad : κ → Prop) (look : κ → Option ν) (c : Cache κ ν) : Prop :=
  ∀ k v, ¬ bad k → c k = some v → look k = some v

theorem move_keep (look : κ → Option ν) (may : κ → Bool) {m : κ → CacheMove} (h : m k = .keep) :
    c.move look may m k = c k := by
  rw [move, h]

theorem coherent_empty (bad : κ → Prop) (look : κ → Option ν) :
    Coherent bad look (empty : Cache κ ν) := by
  intro k v _ hk
  contradiction

theorem Coherent.mono {bad' : κ → Prop} (h : Coherent bad look c)
    (hsub : ∀ k, bad k → bad' k) : Coherent bad' look c :=
  fun k v hbad hk => h k v (fun hb => hbad (hsub k hb)) hk

/-- The hardware's own moves keep a cache coherent. -/
theorem Coherent.move (h : Coherent bad look c) (may : κ → Bool) (m : κ → CacheMove) :
    Coherent bad look (c.move look may m) := by
  intro k v hbad hk
  unfold Cache.move at hk
  split at hk
  · exact h k v hbad hk
  · contradiction
  · split at hk
    · exact hk
    · exact h k v hbad hk

/-- They do not bring in a key that they may not fill or that has no answer. -/
theorem move_eq_none {may : κ → Bool} (h : c k = none) (hmay : may k = true → look k = none)
    (m : κ → CacheMove) : c.move look may m k = none := by
  unfold Cache.move
  split
  · exact h
  · rfl
  · split
    · exact hmay ‹_›
    · exact h

/-- A change of the lookup that keeps the answers that may be cached. -/
theorem Coherent.change (h : Coherent bad look c) {bad' : κ → Prop}
    (hlook : ∀ k v, ¬ bad' k → c k = some v → ¬ bad k ∧ (look k = some v → look' k = some v)) :
    Coherent bad' look' c := by
  intro k v hbad hk
  obtain ⟨hb, hl⟩ := hlook k v hbad hk
  exact hl (h k v hb hk)

/-- **Invalidation**: once its key is dropped, a changed answer is harmless. -/
theorem Coherent.drop [DecidableEq κ] (h : Coherent bad look c) {bad' : κ → Prop}
    (hlook : ∀ k' ≠ k, ¬ bad' k' → ¬ bad k' ∧ look' k' = look k') :
    Coherent bad' look' (c.drop k) := by
  intro k' v hbad hk
  by_cases heq : k' = k
  · subst heq
    rw [Cache.drop, Function.update_self] at hk
    contradiction
  · obtain ⟨hb, hl⟩ := hlook k' heq hbad
    rw [Cache.drop, Function.update_of_ne heq] at hk
    rw [hl]
    exact h k' v hb hk

/-- A cache that holds nothing for some of the exceptions has the others only. -/
theorem Coherent.of_without {bad' : κ → Prop} (h : Coherent bad look c)
    (hwithout : ∀ k, bad k → bad' k ∨ c k = none) : Coherent bad' look c := by
  intro k v hbad hk
  refine h k v (fun hb => ?_) hk
  rcases hwithout k hb with hb' | hnone
  · exact hbad hb'
  · rw [hnone] at hk
    contradiction

/-- Nor does one hold a key that the lookup does not find. -/
theorem Coherent.none_of_none (h : Coherent bad look c) (hbad : ¬ bad k) (hnone : look k = none) :
    c k = none := by
  cases hk : c k with
  | none => rfl
  | some v =>
      have hv := h k v hbad hk
      rw [hnone] at hv
      contradiction

end Cache
