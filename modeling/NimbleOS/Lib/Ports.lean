/-!
# Ports

Programs that write and read ports, and the machines that answer them.  Two machines that
answer alike as long as a program keeps to the writes it is allowed cannot be told apart
by it.
-/

/-- What is written and read, in this order, up to the value returned; a program goes on as
the data read says. -/
inductive Ports (P D α : Type) where
  | ret (a : α)
  | out (port : P) (data : D) (next : Ports P D α)
  | inp (port : P) (next : D → Ports P D α)

namespace Ports

variable {P D α β σ τ : Type}

def bind : Ports P D α → (α → Ports P D β) → Ports P D β
  | ret a, f => f a
  | out port data next, f => out port data (next.bind f)
  | inp port next, f => inp port fun data => (next data).bind f

instance : Monad (Ports P D) where
  pure := ret
  bind := bind

def write (port : P) (data : D) : Ports P D Unit := out port data (ret ())

def read (port : P) : Ports P D D := inp port ret

/-- The devices behind the ports; a read may change them as well. -/
structure Machine (P D σ : Type) where
  out : σ → P → D → σ
  inp : σ → P → D × σ

def run (m : Machine P D σ) : Ports P D α → σ → α × σ
  | ret a, s => (a, s)
  | out port data next, s => next.run m (m.out s port data)
  | inp port next, s => (next (m.inp s port).1).run m (m.inp s port).2

/-- Every write is allowed, whatever is read. -/
def Within (ok : P → D → Prop) : Ports P D α → Prop
  | ret _ => True
  | out port data next => ok port data ∧ next.Within ok
  | inp _ next => ∀ data, (next data).Within ok

variable {m : Machine P D σ} {m' : Machine P D τ} {ok : P → D → Prop}

@[simp]
theorem run_pure (a : α) (s : σ) : (pure a : Ports P D α).run m s = (a, s) := rfl

@[simp]
theorem run_write (port : P) (data : D) (s : σ) :
    (write port data).run m s = ((), m.out s port data) := rfl

@[simp]
theorem run_read (port : P) (s : σ) : (read port).run m s = m.inp s port := rfl

@[simp]
theorem run_bind (p : Ports P D α) (f : α → Ports P D β) (s : σ) :
    (p >>= f).run m s = (f (p.run m s).1).run m (p.run m s).2 := by
  show (p.bind f).run m s = _
  induction p generalizing s with
  | ret a => rfl
  | out port data next ih => exact ih _
  | inp port next ih => exact ih _ _

@[simp]
theorem within_pure (a : α) : (pure a : Ports P D α).Within ok ↔ True := Iff.rfl

@[simp]
theorem within_write (port : P) (data : D) : (write port data).Within ok ↔ ok port data :=
  and_iff_left trivial

@[simp]
theorem within_read (port : P) : (read port : Ports P D D).Within ok ↔ True :=
  iff_true_intro fun _ => trivial

theorem Within.bind {p : Ports P D α} {f : α → Ports P D β} (hp : p.Within ok)
    (hf : ∀ a, (f a).Within ok) : (p >>= f).Within ok := by
  show (p.bind f).Within ok
  induction p with
  | ret a => exact hf a
  | out port data next ih => exact ⟨hp.1, ih hp.2⟩
  | inp port next ih => exact fun data => ih data (hp data)

/-- **Simulation rule**: related machines stay related, and the program returns the same,
if every write that is allowed and every read keeps them so. -/
theorem simulate (R : σ → τ → Prop)
    (hout : ∀ s t port data, R s t → ok port data → R (m.out s port data) (m'.out t port data))
    (hinp : ∀ s t port, R s t →
      (m.inp s port).1 = (m'.inp t port).1 ∧ R (m.inp s port).2 (m'.inp t port).2)
    (p : Ports P D α) (hp : p.Within ok) {s : σ} {t : τ} (h : R s t) :
    (p.run m s).1 = (p.run m' t).1 ∧ R (p.run m s).2 (p.run m' t).2 := by
  induction p generalizing s t with
  | ret a => exact ⟨rfl, h⟩
  | out port data next ih => exact ih hp.2 (hout s t port data h hp.1)
  | inp port next ih =>
      obtain ⟨hdata, hnext⟩ := hinp s t port h
      simp only [run, hdata]
      exact ih _ (hp _) hnext

end Ports
