import NimbleOS.Cpu.Irq
import NimbleOS.Lib.Run

/-!
# NimbleOS.Cpu.Service

Interrupts, genuine and spurious, as `irq_handler` serves them: over every run the
in-service registers of the controllers are where they were before each
interrupt, and each handler is called once, unless a genuine IRQ 15 arrives.
-/

namespace NimbleOS

variable {H : Type}

/-! ## interrupts -/

/-- An interrupt that the controllers deliver.  A spurious one comes from a request
that was withdrawn before it was acknowledged. -/
inductive Interrupt where
  | genuine (line : Fin 16)
  | spurious7
  | spurious15
  deriving DecidableEq

namespace Interrupt

/-- The vector, as `irq_remap` sets it up. -/
def vector : Interrupt → Nat
  | genuine n => irq0 + n
  | spurious7 => irq7
  | spurious15 => irq15

/-- The handlers to be called. -/
def expected (handlers : Nat → Option H) : Interrupt → List H
  | genuine n => (handlers n).toList
  | spurious7 | spurious15 => []

end Interrupt

/-- The controllers accept an interrupt.  A line of the slave is in service on the
master as line 2. -/
def IrqState.accept (s : IrqState H) : Interrupt → IrqState H
  | .genuine n =>
      if h : n.val < 8 then { s with pic1 := s.pic1.accept ⟨n, h⟩ }
      else { s with pic1 := s.pic1.accept 2, pic2 := s.pic2.accept ⟨n - 8, by omega⟩ }
  | .spurious7 => s
  | .spurious15 => { s with pic1 := s.pic1.accept 2 }

/-- What happens to the controllers and the table of handlers. -/
inductive IrqEvent (H : Type) where
  | interrupt (i : Interrupt)
  | register (line : Fin 16) (handler : H)
  deriving DecidableEq

inductive IrqStep : IrqState H → IrqEvent H → IrqState H → Prop where
  | interrupt : IrqStep s (.interrupt i) (irqHandler (s.accept i) i.vector).1
  | register : irqRegisterHandler s (irq0 + line.val) handler = .ok s' →
      IrqStep s (.register line handler) s'

/-- The handlers that `irq_handler` calls, in order. -/
def called : List (IrqAction H) → List H
  | [] => []
  | .call handler _ :: actions => handler :: called actions
  | .print _ :: actions => called actions

/-- An interrupt is served: both in-service registers are as before it, at the end
and at the call of a handler, and the handlers called are those to be called. -/
structure Serves (s : IrqState H) (i : Interrupt) : Prop where
  master : (irqHandler (s.accept i) i.vector).1.pic1.isr = s.pic1.isr
  slave : (irqHandler (s.accept i) i.vector).1.pic2.isr = s.pic2.isr
  calls : called (irqHandler (s.accept i) i.vector).2 = i.expected s.handlers
  atCall : ∀ handler t, .call handler t ∈ (irqHandler (s.accept i) i.vector).2 →
    t.pic1.isr = s.pic1.isr ∧ t.pic2.isr = s.pic2.isr

/-! ## runs -/

/-- No request is in service. -/
structure IrqState.Idle (s : IrqState H) : Prop where
  master : s.pic1.isr = 0
  slave : s.pic2.isr = 0

theorem IrqState.accept_handlers (s : IrqState H) (i : Interrupt) :
    (s.accept i).handlers = s.handlers := by
  cases i with
  | genuine n =>
      simp only [IrqState.accept]
      split <;> rfl
  | spurious7 => rfl
  | spurious15 => rfl

/-- Serving an interrupt leaves the table of handlers as it is. -/
theorem irqHandler_handlers (s : IrqState H) (irq : Nat) :
    (irqHandler s irq).1.handlers = s.handlers := by
  obtain ⟨-, -, hh⟩ := irqIsSpurious_same s irq
  unfold irqHandler
  generalize irqIsSpurious s irq = r at *
  obtain ⟨spurious, t⟩ := r
  rw [← hh]
  cases spurious with
  | true =>
      dsimp only
      split <;> rfl
  | false =>
      obtain ⟨-, -, hkeep⟩ := irqSendEoi_spec t irq
      dsimp only
      split <;> exact hkeep

/-- The handler that is called, if the interrupt is not taken for spurious. -/
theorem called_irqHandler (s : IrqState H) (irq : Nat) : called (irqHandler s irq).2 =
    if (irqIsSpurious s irq).1 = true then [] else (s.handlers (u32Sub irq irq0)).toList := by
  cases h : (irqIsSpurious s irq).1 with
  | true =>
      obtain ⟨-, -, hnone⟩ := irqHandler_of_spurious h
      rw [hnone]
      rfl
  | false =>
      obtain ⟨t, -, -, -, hactions⟩ := irqHandler_of_genuine h
      rw [hactions]
      cases s.handlers (u32Sub irq irq0) <;> rfl

/-- A genuine interrupt that is taken for one is served if its end clears both
registers. -/
theorem Serves.of_genuine {s : IrqState H} {n : Fin 16} (hs : s.Idle)
    (h : (irqIsSpurious (s.accept (.genuine n)) (irq0 + n)).1 = false)
    (hmaster : (s.accept (.genuine n)).pic1.endOfInterrupt.isr = 0)
    (hslave : (if irq0 + n.val > irq7 then (s.accept (.genuine n)).pic2.endOfInterrupt.isr
      else (s.accept (.genuine n)).pic2.isr) = 0) : Serves s (.genuine n) := by
  obtain ⟨t, ht₁, ht₂, hstate, hactions⟩ := irqHandler_of_genuine h
  have hline : u32Sub (irq0 + n.val) irq0 = n.val := by
    unfold u32Sub irq0
    omega
  rw [hline, s.accept_handlers] at hactions
  have hm : t.pic1.isr = s.pic1.isr := by rw [ht₁, hmaster, hs.master]
  have hsl : t.pic2.isr = s.pic2.isr := by rw [ht₂, hslave, hs.slave]
  refine
    { master := (congrArg (fun t => t.pic1.isr) hstate).trans hm
      slave := (congrArg (fun t => t.pic2.isr) hstate).trans hsl
      calls := ?_
      atCall := fun handler t' hmem => ?_ }
  · rw [Interrupt.vector, hactions, Interrupt.expected]
    cases s.handlers n.val <;> rfl
  · rw [Interrupt.vector, hactions] at hmem
    cases hh : s.handlers n.val with
    | none => simp [hh] at hmem
    | some handler' =>
        simp only [hh, List.mem_singleton, IrqAction.call.injEq] at hmem
        obtain ⟨-, rfl⟩ := hmem
        exact ⟨hm, hsl⟩

/-- An interrupt taken for spurious is served if no handler is to be called and the
slave has nothing in service. -/
theorem serves_of_spurious {s : IrqState H} {i : Interrupt}
    (h : (irqIsSpurious (s.accept i) i.vector).1 = true) :
    Serves s i ↔
      (if i.vector = irq15 then (s.accept i).pic1.endOfInterrupt.isr
        else (s.accept i).pic1.isr) = s.pic1.isr ∧
      (s.accept i).pic2.isr = s.pic2.isr ∧ i.expected s.handlers = [] := by
  obtain ⟨h₁, h₂, hactions⟩ := irqHandler_of_spurious h
  constructor
  · intro hserves
    refine ⟨h₁ ▸ hserves.master, h₂ ▸ hserves.slave, ?_⟩
    have hcalls := hserves.calls
    rw [hactions] at hcalls
    exact hcalls.symm
  · rintro ⟨hmaster, hslave, hnone⟩
    exact
      { master := h₁.trans hmaster
        slave := h₂.trans hslave
        calls := by rw [hactions, hnone]; rfl
        atCall := fun handler t hmem => by rw [hactions] at hmem; cases hmem }

theorem IrqState.accept_slave (s : IrqState H) {n : Fin 16} (hge : ¬ n.val < 8) : s.accept (.genuine n) =
    { s with
      pic1 := s.pic1.accept 2
      pic2 := s.pic2.accept ⟨n - 8, by omega⟩ } :=
  dif_neg hge

section

variable {s : IrqState H} (hs : s.Idle) {n : Fin 16}

include hs

/-- A line of the master. -/
theorem serves_of_master (hlt : n.val < 8) : Serves s (.genuine n) := by
  have haccept : s.accept (.genuine n) = { s with pic1 := s.pic1.accept ⟨n, hlt⟩ } := dif_pos hlt
  refine .of_genuine hs ?_ ?_ ?_
  · by_cases h₇ : n = 7
    · subst h₇
      rw [haccept]
      refine (irqIsSpurious_irq7 _).trans ?_
      simp only [Pic.accept, hs.master]
      decide
    · rw [irqIsSpurious_of_ne]
      · unfold irq0 irq7
        omega
      · unfold irq0 irq15
        omega
  · rw [haccept]
    exact Pic.endOfInterrupt_accept hs.master _
  · rw [haccept, if_neg]
    · exact hs.slave
    · unfold irq0 irq7
      omega

/-- A line of the slave but for the last one. -/
theorem serves_of_slave (hge : ¬ n.val < 8) (hne : n ≠ 15) : Serves s (.genuine n) := by
  refine .of_genuine hs ?_ ?_ ?_
  · rw [irqIsSpurious_of_ne]
    · unfold irq0 irq7
      omega
    · unfold irq0 irq15
      omega
  · rw [s.accept_slave hge]
    exact Pic.endOfInterrupt_accept hs.master _
  · rw [s.accept_slave hge, if_pos]
    · exact Pic.endOfInterrupt_accept hs.slave _
    · unfold irq0 irq7
      omega

/-- The last line is taken for spurious, and stays in service. -/
theorem not_serves_irq15 : ¬ Serves s (.genuine 15) := by
  rw [serves_of_spurious (irqIsSpurious_irq15 _), s.accept_slave (by decide)]
  rintro ⟨-, hslave, -⟩
  refine absurd hslave ?_
  simp only [Pic.accept, hs.slave]
  decide

/-- **One interrupt**: from an idle state each one is served but a genuine IRQ 15. -/
theorem serves_iff_of_idle (i : Interrupt) : Serves s i ↔ i ≠ .genuine 15 := by
  cases i with
  | genuine n =>
      constructor
      · rintro hserves ⟨⟩
        exact not_serves_irq15 hs hserves
      · intro hne
        by_cases hlt : n.val < 8
        · exact serves_of_master hs hlt
        · exact serves_of_slave hs hlt fun h => hne (congrArg Interrupt.genuine h)
  | spurious7 =>
      have hspurious : (irqIsSpurious (s.accept .spurious7) irq7).1 = true := by
        rw [irqIsSpurious_irq7, IrqState.accept, hs.master]
        rfl
      rw [serves_of_spurious hspurious]
      exact ⟨fun _ h => (by cases h), fun _ => ⟨rfl, rfl, rfl⟩⟩
  | spurious15 =>
      rw [serves_of_spurious (irqIsSpurious_irq15 _)]
      refine ⟨fun _ h => (by cases h), fun _ => ⟨?_, rfl, rfl⟩⟩
      exact (Pic.endOfInterrupt_accept hs.master 2).trans hs.master.symm

end

/-- Registering a handler does not touch the controllers. -/
theorem IrqState.Idle.register {s : IrqState H} (hs : s.Idle)
    (h : irqRegisterHandler s irq handler = .ok s') : s'.Idle := by
  unfold irqRegisterHandler at h
  split at h
  · split at h
    · obtain rfl := Except.ok.inj h
      exact ⟨hs.master, hs.slave⟩
    · obtain rfl := Except.ok.inj h
      exact hs
  · cases h

/-- What is served leaves the controllers idle. -/
theorem IrqState.Idle.step {s : IrqState H} (hs : s.Idle) (h : IrqStep s e s')
    (hne : e ≠ .interrupt (.genuine 15)) : s'.Idle := by
  cases h with
  | interrupt =>
      have hserves := (serves_iff_of_idle hs _).mpr fun h => hne (h ▸ rfl)
      exact ⟨hserves.master.trans hs.master, hserves.slave.trans hs.slave⟩
  | register hr => exact hs.register hr

/-- Every event has a next state. -/
theorem exists_irqStep (s : IrqState H) (e : IrqEvent H) : ∃ s', IrqStep s e s' := by
  cases e with
  | interrupt i => exact ⟨_, .interrupt⟩
  | register line handler =>
      have hrange : irq0 + line.val ≥ irq0 ∧ irq0 + line.val ≤ irq15 := by
        unfold irq0 irq15
        omega
      have hok : ∃ s', irqRegisterHandler s (irq0 + line.val) handler = .ok s' := by
        rw [irqRegisterHandler, if_pos hrange]
        cases s.handlers (irq0 + line.val - irq0) with
        | none => exact ⟨_, rfl⟩
        | some old => exact ⟨_, rfl⟩
      obtain ⟨s', hs'⟩ := hok
      exact ⟨s', .register hs'⟩

theorem irqStep_det {s : IrqState H} (h : IrqStep s e s') (h' : IrqStep s e s'') : s'' = s' := by
  cases h with
  | interrupt => cases h'; rfl
  | register hr =>
      cases h' with
      | register hr' => exact Except.ok.inj (hr'.symm.trans hr)

/-- **Runs**: from an idle state, every interrupt of a run is served exactly if none
of them is a genuine IRQ 15. -/
theorem irq_handler_serves_iff {s : IrqState H} (hs : s.Idle) (es : List (IrqEvent H)) :
    Run.Always IrqStep (fun t e => ∀ i, e = .interrupt i → Serves t i) s es ↔
      .interrupt (.genuine 15) ∉ es := by
  induction es generalizing s with
  | nil => simp [Run.always_nil]
  | cons e es ih =>
      obtain ⟨s', hstep⟩ := exists_irqStep s e
      rw [Run.always_cons (fun t ht => irqStep_det hstep ht) hstep, List.mem_cons, not_or]
      have hhere : (∀ i, e = .interrupt i → Serves s i) ↔ .interrupt (.genuine 15) ≠ e := by
        constructor
        · intro h heq
          exact (serves_iff_of_idle hs _).mp (h _ heq.symm) rfl
        · rintro hne i rfl
          exact (serves_iff_of_idle hs _).mpr fun h => hne (h ▸ rfl)
      rw [hhere]
      exact and_congr_right fun hne => ih (hs.step hstep hne.symm)

/-- The controllers after `irq_remap`, with a handler for each line. -/
def irqInitial : IrqState Nat :=
  { pic1 := { isr := 0, irr := 0, imr := 0, readIsr := false }
    pic2 := { isr := 0, irr := 0, imr := 0, readIsr := false }
    handlers := some }

theorem irq_handler_serves_timer_and_disk :
    Run.Always IrqStep (fun t e => ∀ i, e = .interrupt i → Serves t i) irqInitial
      [.interrupt (.genuine 0), .interrupt .spurious15, .interrupt (.genuine 14)] :=
  (irq_handler_serves_iff (s := irqInitial) ⟨rfl, rfl⟩ _).mpr (by decide)

/-- IRQ 15 stays in service on the slave, and its handler is not called. -/
theorem irq_handler_drops_irq15 :
    ¬ Run.Always IrqStep (fun t e => ∀ i, e = .interrupt i → Serves t i) irqInitial
      [.interrupt (.genuine 15)] := by
  intro h
  have hserves := h [] _ [] irqInitial rfl (.nil _) _ rfl
  have hcalls := hserves.calls
  cases hcalls

end NimbleOS
