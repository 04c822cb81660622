import NimbleOS.Lib.Run

/-!
# Replay

Programs that ask an environment and log its answers.  `Replays` says that a program
depends on its environment through these answers alone: with any other environment that
gives the same answers it does the same.  Its rules follow the way in which programs are
put together.
-/

/-- States with an environment, which can be exchanged, and a log of its answers so far, the
latest first. -/
class Asks (σ : Type) (ρ α : outParam Type) where
  env : σ → ρ
  log : σ → List α
  within : σ → ρ → σ

/-- A result beside the state. -/
instance [Asks σ ρ α] : Asks (β × σ) ρ α where
  env x := Asks.env x.2
  log x := Asks.log x.2
  within x q := (x.1, Asks.within x.2 q)

/-- What has led from `s` to `s'` is what the log has gained, and `again` leads from `s` to `s'`
within every environment that gives the same answers. -/
def SameAnswers (Answer : ρ → α → ρ → Prop) [Asks σ ρ α] [Asks τ ρ α] (s : σ) (s' : τ)
    (again : σ → τ → Prop) : Prop :=
  ∃ new, Asks.log s' = new ++ Asks.log s ∧ Run Answer (Asks.env s) new.reverse (Asks.env s') ∧
    ∀ q q', Run Answer q new.reverse q' → again (Asks.within s q) (Asks.within s' q')

namespace SameAnswers

variable {Answer : ρ → α → ρ → Prop} [Asks σ ρ α] [Asks τ ρ α] [Asks υ ρ α]

/-- Nothing was asked. -/
theorem of_quiet {s : σ} {s' : τ} {again : σ → τ → Prop} (hlog : Asks.log s' = Asks.log s)
    (henv : (Asks.env s' : ρ) = Asks.env s)
    (h : ∀ q : ρ, again (Asks.within s q) (Asks.within s' q)) : SameAnswers Answer s s' again := by
  refine ⟨[], hlog, by rw [henv]; exact .nil _, fun q q' hrun => ?_⟩
  cases hrun
  exact h q

/-- One thing was asked. -/
theorem of_ask {s : σ} {s' : τ} {again : σ → τ → Prop} (hlog : Asks.log s' = a :: Asks.log s)
    (hask : Answer (Asks.env s) a (Asks.env s'))
    (h : ∀ q q', Answer q a q' → again (Asks.within s q) (Asks.within s' q')) :
    SameAnswers Answer s s' again := by
  refine ⟨[a], hlog, .single hask, fun q q' hrun => ?_⟩
  cases hrun with
  | cons hstep hnil =>
      cases hnil
      exact h q _ hstep

/-- One after the other. -/
theorem trans {s : σ} {s' : τ} {s'' : υ} {again : σ → τ → Prop} {again' : τ → υ → Prop}
    {both : σ → υ → Prop} (h : SameAnswers Answer s s' again)
    (h' : SameAnswers Answer s' s'' again')
    (hboth : ∀ t t' t'', again t t' → again' t' t'' → both t t'') :
    SameAnswers Answer s s'' both := by
  obtain ⟨new, hlog, hown, hrun⟩ := h
  obtain ⟨new', hlog', hown', hrun'⟩ := h'
  refine ⟨new' ++ new, by rw [hlog', hlog, List.append_assoc], ?_, fun q q'' hq => ?_⟩
  · rw [List.reverse_append]
    exact hown.append hown'
  · rw [List.reverse_append] at hq
    obtain ⟨q', hq, hq'⟩ := hq.of_append
    exact hboth _ _ _ (hrun q q' hq) (hrun' q' q'' hq')

theorem mono {s : σ} {s' : τ} {again again' : σ → τ → Prop} (h : SameAnswers Answer s s' again)
    (hle : ∀ t t', again t t' → again' t t') : SameAnswers Answer s s' again' := by
  obtain ⟨new, hlog, hown, hrun⟩ := h
  exact ⟨new, hlog, hown, fun q q' hq => hle _ _ (hrun q q' hq)⟩

end SameAnswers

/-- Where `x` returns, it returns the same within every environment that gives the answers that
it has logged. -/
def Replays (Answer : ρ → α → ρ → Prop) [Asks σ ρ α] [Asks τ ρ α] (x : σ → Except ε τ) : Prop :=
  ∀ s s', x s = .ok s' → SameAnswers Answer s s' fun t t' => x t = .ok t'

namespace Replays

variable {Answer : ρ → α → ρ → Prop} [Asks σ ρ α] [Asks τ ρ α] [Asks υ ρ α]

/-- A total function that asks nothing. -/
theorem of_map {f : σ → τ} (hlog : ∀ s, Asks.log (f s) = Asks.log s)
    (henv : ∀ s, (Asks.env (f s) : ρ) = Asks.env s)
    (hf : ∀ s (q : ρ), f (Asks.within s q) = Asks.within (f s) q) :
    Replays Answer (fun s => (.ok (f s) : Except ε τ)) := by
  intro s s' h
  obtain rfl := Except.ok.inj h
  exact .of_quiet (hlog s) (henv s) fun q => congrArg Except.ok (hf s q)

theorem pure : Replays Answer (fun s : σ => (.ok s : Except ε σ)) :=
  of_map (fun _ => rfl) (fun _ => rfl) fun _ _ => rfl

/-- A program that does not return. -/
theorem error (e : ε) : Replays Answer (fun _ : σ => (.error e : Except ε τ)) :=
  fun _ _ h => nomatch h

theorem bind {x : σ → Except ε τ} {f : τ → Except ε υ} (hx : Replays Answer x)
    (hf : Replays Answer f) : Replays Answer fun s => x s >>= f := by
  intro s s'' h
  dsimp only at h
  cases hxs : x s with
  | error e =>
      rw [hxs] at h
      cases h
  | ok s' =>
      rw [hxs] at h
      refine (hx s s' hxs).trans (hf s' s'' h) fun t t' t'' ht ht' => ?_
      dsimp only
      rw [ht]
      exact ht'

/-- A total step first. -/
theorem after {g : σ → τ} {x : σ → Except ε υ} {f : τ → Except ε υ}
    (hg : Replays Answer fun s => (.ok (g s) : Except ε τ)) (hf : Replays Answer f)
    (hx : ∀ s, x s = f (g s)) : Replays Answer x := by
  obtain rfl : x = fun s => f (g s) := funext hx
  exact hg.bind hf

/-- The result may be used. -/
theorem pair {f : β × σ → Except ε τ} (hf : ∀ b, Replays Answer fun s => f (b, s)) :
    Replays Answer f :=
  fun x s' h => hf x.1 x.2 s' h

/-- So may what does not depend on the environment. -/
theorem reads {r : σ → Except ε β} {f : β → σ → Except ε τ}
    (hr : ∀ s (q : ρ), r (Asks.within s q) = r s) (hf : ∀ b, Replays Answer (f b)) :
    Replays Answer fun s => r s >>= fun b => f b s := by
  intro s s' h
  dsimp only at h
  cases hrs : r s with
  | error e =>
      rw [hrs] at h
      cases h
  | ok b =>
      rw [hrs] at h
      obtain ⟨new, hlog, hown, hrun⟩ := hf b s s' h
      refine ⟨new, hlog, hown, fun q q' hq => ?_⟩
      dsimp only
      rw [hr s q, hrs]
      exact hrun q q' hq

end Replays
