import NimbleOS.Cpu.Gdt
import NimbleOS.Cpu.Remap

/-!
# NimbleOS.Cpu.Timer

The timer (`kernel/src/cpu/devices/timer.c`, `kernel/include/kernel/timer.h`): the channel of
the 8254 that `timer_init` programs, and the ticks that are counted from its interrupts.
-/

namespace NimbleOS

variable {H C : Type}

/-! ## the 8254 -/

def pit0 : Nat := 0x40
def pitCmd : Nat := 0x43

/-- `PIT_MODE`: both bytes of channel 0, square wave. -/
def pitMode : BitVec 8 := 0x36

/-- A channel: how its count is written, which of two bytes has come, and the count. -/
structure PitChannel where
  access : BitVec 2
  mode : BitVec 3
  bcd : Bool
  low : Option (BitVec 8)
  reload : BitVec 16

namespace PitChannel

/-- A control word: the count is to be written anew. -/
def control (c : PitChannel) (data : BitVec 8) : PitChannel :=
  { c with
    access := data.extractLsb' 4 2
    mode := data.extractLsb' 1 3
    bcd := data.getLsbD 0
    low := none }

/-- A byte of the count: the low one, the high one, or the one after the other. -/
def count (c : PitChannel) (data : BitVec 8) : PitChannel :=
  if c.access = 1 then { c with reload := data.setWidth 16 }
  else if c.access = 2 then { c with reload := data.setWidth 16 <<< 8 }
  else
    match c.low with
    | none => { c with low := some data }
    | some low => { c with low := none, reload := data ++ low }

/-- What the channel divides its clock by: a count of 0 is the largest. -/
def divisor (c : PitChannel) : Nat := if c.reload = 0 then 2 ^ 16 else c.reload.toNat

end PitChannel

/-- The three channels. -/
structure Pit where
  channel : Fin 3 → PitChannel

namespace Pit

def update (p : Pit) (i : Fin 3) (f : PitChannel → PitChannel) : Pit :=
  { channel := fun j => if j = i then f (p.channel j) else p.channel j }

/-- A control word names its channel, if it is not to read one back or to latch its count. -/
def command (p : Pit) (data : BitVec 8) : Pit :=
  if h : (data.extractLsb' 6 2).toNat < 3 then
    if data.extractLsb' 4 2 = 0#2 then p
    else p.update ⟨(data.extractLsb' 6 2).toNat, h⟩ fun c => c.control data
  else p

def outportb (p : Pit) (port : Nat) (data : BitVec 8) : Pit :=
  if port = pitCmd then p.command data
  else if h : pit0 ≤ port ∧ port < pit0 + 3 then
    p.update ⟨port - pit0, by omega⟩ fun c => c.count data
  else p

/-- `timer_init` reads none of its ports. -/
def machine : Ports.Machine Nat (BitVec 8) Pit where
  out := outportb
  inp := fun p _ => (0xFF, p)

end Pit

/-! ## timer_init -/

def timerFreq : Nat := 10
def timerQuotient : Nat := 1193182

/-- The accesses of `timer_init`, for any `TIMER_FREQ`. -/
def Driver.timerInit (freq : Nat) : PortProgram Unit := do
  let divisor := BitVec.ofNat 32 (timerQuotient / freq)
  Ports.write pitCmd pitMode
  Ports.write pit0 ((divisor &&& 0xFF).setWidth 8)
  Ports.write pit0 (((divisor >>> 8) &&& 0xFF).setWidth 8)

/-- The two bytes make up the low half. -/
theorem bytes_append (x : BitVec 32) :
    ((x >>> 8) &&& 0xFF).setWidth 8 ++ (x &&& 0xFF).setWidth 8 = (x.setWidth 16 : BitVec (8 + 8)) := by
  have hmask : ∀ i, i < 8 → (0xFF : BitVec 32).getLsbD i = true := by decide
  have hlow := setWidth_and_mask x 0xFF 0 8 hmask
  rw [BitVec.ushiftRight_zero] at hlow
  rw [setWidth_and_mask x 0xFF 8 8 hmask, hlow]
  ext i hi
  grind

theorem Pit.update_update (p : Pit) (i : Fin 3) (f g : PitChannel → PitChannel) :
    (p.update i f).update i g = p.update i fun c => g (f c) := by
  simp only [update, Pit.mk.injEq]
  funext j
  split <;> rfl

/-- Whatever state the channel is in, both bytes of the count are written anew. -/
theorem run_timerInit (p : Pit) (freq : Nat) :
    ((Driver.timerInit freq).run Pit.machine p).2 = p.update 0 fun _ =>
      { access := 3
        mode := 3
        bcd := false
        low := none
        reload := (BitVec.ofNat 32 (timerQuotient / freq)).setWidth 16 } := by
  rw [← bytes_append]
  have hcommand : p.outportb pitCmd pitMode = p.update 0 fun c => c.control pitMode := rfl
  have hcount : ∀ (p : Pit) data, p.outportb pit0 data = p.update 0 fun c => c.count data :=
    fun _ _ => rfl
  simp only [Driver.timerInit, Ports.run_bind, Ports.run_write, Pit.machine, hcommand, hcount,
    Pit.update_update]
  rfl

/-- The divisor is the one that `TIMER_FREQ` asks for. -/
theorem reload_iff (freq : Nat) (c : PitChannel)
    (h : c.reload = (BitVec.ofNat 32 (timerQuotient / freq)).setWidth 16) :
    c.divisor = timerQuotient / freq ↔ 19 ≤ freq ∧ freq ≤ timerQuotient := by
  have hle : timerQuotient / freq ≤ timerQuotient := Nat.div_le_self _ _
  have hreload : c.reload.toNat = timerQuotient / freq % 2 ^ 16 := by
    rw [h, BitVec.toNat_setWidth, BitVec.toNat_ofNat, Nat.mod_eq_of_lt (b := 2 ^ 32)]
    unfold timerQuotient at *
    omega
  have hzero : c.reload = 0 ↔ timerQuotient / freq % 2 ^ 16 = 0 := by
    rw [← hreload, BitVec.toNat_eq]
    rfl
  have hbounds : 1 ≤ timerQuotient / freq ∧ timerQuotient / freq ≤ 2 ^ 16 ↔
      19 ≤ freq ∧ freq ≤ timerQuotient := by
    rcases Nat.eq_zero_or_pos freq with rfl | hpos
    · simp
    · have hmul : timerQuotient / freq ≤ 2 ^ 16 ↔ timerQuotient < (2 ^ 16 + 1) * freq := by
        rw [← Nat.lt_succ_iff, Nat.div_lt_iff_lt_mul hpos]
      rw [Nat.one_le_div_iff hpos, hmul]
      unfold timerQuotient
      omega
  rw [PitChannel.divisor, ← hbounds]
  split
  · rename_i h0
    have := hzero.mp h0
    omega
  · rename_i h0
    have := mt hzero.mpr h0
    omega

/-- **The divisor**: `timer_init`, in whatever state it finds the 8254, has channel 0 make a
square wave and leaves the others alone; the channel divides its clock as `TIMER_FREQ` asks
for exactly if that is at least 19.  For the 10 that it is, 16 bits are left of the divisor. -/
theorem timer_init_divides_iff (p : Pit) (freq : Nat) :
    let p' := ((Driver.timerInit freq).run Pit.machine p).2
    (∀ i, i ≠ 0 → p'.channel i = p.channel i) ∧
      (p'.channel 0).mode = 3 ∧ (p'.channel 0).bcd = false ∧ (p'.channel 0).low = none ∧
      ((p'.channel 0).divisor = timerQuotient / freq ↔ 19 ≤ freq ∧ freq ≤ timerQuotient) ∧
      (freq = timerFreq → (p'.channel 0).divisor = 53782) := by
  intro p'
  have hp' : p' = _ := run_timerInit p freq
  refine ⟨fun i hi => ?_, ?_, ?_, ?_, reload_iff freq _ ?_, ?_⟩
  · rw [hp']
    exact if_neg hi
  · rw [hp']
    rfl
  · rw [hp']
    rfl
  · rw [hp']
    rfl
  · rw [hp']
    rfl
  · rintro rfl
    rw [hp']
    rfl

/-! ## ticks -/

/-- What `irq_handlers` holds: `timer_callback`, or the handler of another line. -/
inductive IrqCallee (H : Type) where
  | timerCallback
  | other (handler : H)

/-- `current_tick` and `callback`, and the calls that `callback` has had, with the state of
`irq.c`. -/
structure TimerState (H C : Type) where
  irq : IrqState (IrqCallee H)
  currentTick : BitVec 32
  callback : Option C
  calls : List C

def timerCallback (s : TimerState H C) : TimerState H C :=
  { s with currentTick := s.currentTick + 1, calls := s.calls ++ s.callback.toList }

/-- `timer_register_callback`: the first one stays. -/
def timerRegisterCallback (s : TimerState H C) (handler : C) : TimerState H C :=
  match s.callback with
  | some _ => s
  | none => { s with callback := some handler }

/-- A handler that `irq_handler` calls. -/
def IrqCallee.run (s : TimerState H C) : IrqCallee H → TimerState H C
  | .timerCallback => NimbleOS.timerCallback s
  | .other _ => s

/-- `irq.c`, and the calls of `timer_register_callback`. -/
inductive TimerEvent (H C : Type) where
  | interrupt (i : Interrupt)
  | register (line : Fin 16) (handler : H)
  | call (c : MaskCall)
  | registerCallback (callback : C)

def TimerEvent.line : TimerEvent H C → Option (LineEvent (IrqCallee H))
  | .interrupt i => some (.interrupt i)
  | .register line handler => some (.register line (.other handler))
  | .call c => some (.call c)
  | .registerCallback _ => none

inductive TimerStep : TimerState H C → TimerEvent H C → TimerState H C → Prop where
  | line : e.line = some l → LineStep s.irq (l, actions) irq →
      TimerStep s e ((called actions).foldl IrqCallee.run { s with irq := irq })
  | registerCallback : TimerStep s (.registerCallback c) (timerRegisterCallback s c)

/-- The statics as they are, the controllers being in whatever state. -/
def TimerState.zeroed (pic1 pic2 : Pic) : TimerState H C :=
  { irq := { pic1 := pic1, pic2 := pic2, handlers := fun _ => none }
    currentTick := 0
    callback := none
    calls := [] }

/-- The end of `timer_init`. -/
def timerInit (s : TimerState H C) : Except Halt (TimerState H C) := do
  let irq ← irqRegisterHandler s.irq irq0 .timerCallback
  return { s with irq := irq }

/-- An interrupt with the vector of the timer. -/
def TimerEvent.isTick : TimerEvent H C → Bool
  | .interrupt i => i.vector = irq0
  | _ => false

def TimerEvent.registered : TimerEvent H C → Option C
  | .registerCallback c => some c
  | _ => none

/-- A genuine one alone has this vector. -/
theorem vector_eq_irq0 {i : Interrupt} (h : i.vector = irq0) : i = .genuine 0 := by
  cases i with
  | genuine n =>
      simp only [Interrupt.vector] at h
      exact congrArg Interrupt.genuine (Fin.ext (by simp; omega))
  | spurious7 => exact absurd h (by decide)
  | spurious15 => exact absurd h (by decide)

/-- `timer_callback` is the handler of its line, and of no other. -/
structure IrqState.HandlesTimer (s : IrqState (IrqCallee H)) : Prop where
  timer : s.handlers 0 = some .timerCallback
  others : ∀ n, n ≠ 0 → s.handlers n ≠ some .timerCallback

theorem IrqState.HandlesTimer.congr {s s' : IrqState (IrqCallee H)} (hs : s.HandlesTimer)
    (h : s'.handlers = s.handlers) : s'.HandlesTimer :=
  ⟨by rw [h, hs.timer], fun n hn => by rw [h]; exact hs.others n hn⟩

/-- Registering the handler of another line leaves it so: the first handler stays. -/
theorem IrqState.HandlesTimer.register {s : IrqState (IrqCallee H)} (hs : s.HandlesTimer)
    (h : irqRegisterHandler s irq (.other handler) = .ok s') : s'.HandlesTimer := by
  unfold irqRegisterHandler at h
  split at h
  · split at h
    · rename_i hfree
      obtain rfl := Except.ok.inj h
      refine ⟨?_, fun n hn => ?_⟩
      · have hne : 0 ≠ irq - irq0 := by
          intro heq
          rw [← heq, hs.timer] at hfree
          cases hfree
        exact (if_neg hne).trans hs.timer
      · show (if n = irq - irq0 then some (IrqCallee.other handler) else s.handlers n) ≠ _
        split
        · exact fun h => by cases h
        · exact hs.others n hn
    · obtain rfl := Except.ok.inj h
      exact hs
  · cases h

section

variable {s : IrqState (IrqCallee H)} (hs : s.HandlesTimer)

include hs

/-- A genuine IRQ 0 is never taken for spurious, whatever is in service. -/
theorem called_tick : called (irqHandler (s.accept (.genuine 0)) irq0).2 = [.timerCallback] := by
  have hgenuine : irqIsSpurious (s.accept (.genuine 0)) irq0 = (false, s.accept (.genuine 0)) :=
    irqIsSpurious_of_ne (by decide) (by decide) _
  rw [called_irqHandler, hgenuine, s.accept_handlers]
  exact congrArg Option.toList hs.timer

/-- No other interrupt calls `timer_callback`. -/
theorem called_other (hi : i.vector ≠ irq0) :
    .timerCallback ∉ called (irqHandler (s.accept i) i.vector).2 := by
  have hline : u32Sub i.vector irq0 ≠ 0 := by
    cases i with
    | genuine n =>
        have hlt := n.isLt
        simp only [Interrupt.vector, u32Sub, irq0] at hi ⊢
        omega
    | spurious7 => decide
    | spurious15 => decide
  rw [called_irqHandler, s.accept_handlers]
  split
  · exact List.not_mem_nil
  · rw [Option.mem_toList]
    exact hs.others _ hline

end

/-- A list of handlers without `timer_callback` changes nothing. -/
theorem foldl_run_of_notMem {hs : List (IrqCallee H)} (h : .timerCallback ∉ hs)
    (s : TimerState H C) : hs.foldl IrqCallee.run s = s := by
  induction hs with
  | nil => rfl
  | cons handler hs ih =>
      obtain ⟨hne, hrest⟩ := not_or.mp (mt List.mem_cons.mpr h)
      cases handler with
      | timerCallback => exact absurd rfl hne
      | other handler => exact ih hrest

/-- What one event does to the tick and the callback. -/
structure Ticked (s : TimerState H C) (e : TimerEvent H C) (s' : TimerState H C) : Prop where
  handles : s'.irq.HandlesTimer
  tick : s'.currentTick = if e.isTick then s.currentTick + 1 else s.currentTick
  callback : s'.callback = s.callback.or e.registered
  calls : s'.calls = if e.isTick then s.calls ++ s.callback.toList else s.calls

/-- **Step lemma.** -/
theorem TimerStep.ticked {s : TimerState H C} (hs : s.irq.HandlesTimer) (h : TimerStep s e s') :
    Ticked s e s' := by
  cases h with
  | registerCallback =>
      unfold timerRegisterCallback
      cases hcallback : s.callback with
      | none => exact ⟨hs, rfl, by rw [hcallback]; rfl, rfl⟩
      | some c => exact ⟨hs, rfl, by simp [hcallback], rfl⟩
  | line hline hstep =>
      cases e with
      | registerCallback c => cases hline
      | interrupt i =>
          obtain rfl := Option.some.inj hline
          cases hstep with
          | interrupt =>
              have hhandles := hs.congr
                ((irqHandler_handlers (s.irq.accept i) i.vector).trans (s.irq.accept_handlers i))
              by_cases hi : i.vector = irq0
              · obtain rfl := vector_eq_irq0 hi
                have hcalled : called (irqHandler (s.irq.accept (.genuine 0))
                    (Interrupt.genuine 0).vector).2 = [.timerCallback] := called_tick hs
                rw [hcalled]
                exact ⟨hhandles, rfl, by simp [TimerEvent.registered, IrqCallee.run, timerCallback], rfl⟩
              · rw [foldl_run_of_notMem (called_other hs hi)]
                have htick : (TimerEvent.interrupt i : TimerEvent H C).isTick = false :=
                  decide_eq_false hi
                exact ⟨hhandles, by rw [htick]; rfl, by simp [TimerEvent.registered], by rw [htick]; rfl⟩
      | register line handler =>
          obtain rfl := Option.some.inj hline
          cases hstep with
          | register hr => exact ⟨hs.register hr, rfl, by simp [TimerEvent.registered, called], rfl⟩
      | call c =>
          obtain rfl := Option.some.inj hline
          cases hstep with
          | call =>
              exact ⟨hs.congr (c.run_handlers s.irq), rfl, by simp [TimerEvent.registered, called], rfl⟩

theorem timerInit_handles {pic1 pic2 : Pic} {s : TimerState H C}
    (h : timerInit (.zeroed pic1 pic2) = .ok s) :
    s.irq.HandlesTimer ∧ s.currentTick = 0 ∧ s.callback = none ∧ s.calls = [] := by
  obtain rfl := Except.ok.inj h
  refine ⟨⟨rfl, fun n hn heq => ?_⟩, rfl, rfl, rfl⟩
  cases (if_neg hn).symm.trans heq

/-! ## runs -/

theorem run_currentTick {s : TimerState H C} (hs : s.irq.HandlesTimer) (h : Run TimerStep s es s') :
    s'.currentTick = s.currentTick + BitVec.ofNat 32 (es.countP TimerEvent.isTick) := by
  induction h with
  | nil s => simp
  | @cons s e s₁ es s' hstep _ ih =>
      obtain ⟨hhandles, htick, -, -⟩ := hstep.ticked hs
      rw [ih hhandles, htick, List.countP_cons]
      split
      · rw [BitVec.ofNat_add, BitVec.add_comm (BitVec.ofNat 32 _), ← BitVec.add_assoc]
        rfl
      · rw [Nat.add_zero]

/-- Once there is a callback, each tick calls it. -/
theorem run_calls_some {s : TimerState H C} (hs : s.irq.HandlesTimer) (hc : s.callback = some c)
    (h : Run TimerStep s es s') :
    s'.calls = s.calls ++ List.replicate (es.countP TimerEvent.isTick) c := by
  induction h with
  | nil s => simp
  | @cons s e s₁ es s' hstep _ ih =>
      obtain ⟨hhandles, -, hcallback, hcalls⟩ := hstep.ticked hs
      rw [hc, Option.some_or] at hcallback
      rw [ih hhandles hcallback, hcalls, hc, List.countP_cons]
      split
      · rw [List.replicate_succ, List.append_assoc]
        rfl
      · rw [Nat.add_zero]

/-- As long as none is registered, no tick calls anything. -/
theorem run_calls_none {s : TimerState H C} (hs : s.irq.HandlesTimer) (hc : s.callback = none)
    (h : Run TimerStep s es s') (hes : ∀ e ∈ es, e.registered = none) :
    s'.irq.HandlesTimer ∧ s'.callback = none ∧ s'.calls = s.calls := by
  induction h with
  | nil s => exact ⟨hs, hc, rfl⟩
  | @cons s e s₁ es s' hstep _ ih =>
      obtain ⟨hhandles, -, hcallback, hcalls⟩ := hstep.ticked hs
      obtain ⟨he, hrest⟩ := List.forall_mem_cons.mp hes
      rw [hc, he] at hcallback
      obtain ⟨hhandles', hcallback', hcalls'⟩ := ih hhandles hcallback hrest
      refine ⟨hhandles', hcallback', hcalls'.trans ?_⟩
      rw [hcalls, hc, Option.toList_none, List.append_nil, ite_self]

/-- **Ticks**: from `timer_init` on, whatever state the controllers are in, and whichever
interrupts, registrations of handlers and calls of `irq_mask` and `irq_unmask` come in between,
`current_tick` is the number of genuine IRQ 0 so far, modulo `2 ^ 32`; the callback that is
registered first has been called once for each that came after its registration, and no
other has been called. -/
theorem timer_counts_ticks (pic1 pic2 : Pic) {s₀ s : TimerState H C}
    (h₀ : timerInit (.zeroed pic1 pic2) = .ok s₀) (h : Run TimerStep s₀ es s) :
    s.currentTick = BitVec.ofNat 32 (es.countP TimerEvent.isTick) ∧
      ((∀ e ∈ es, e.registered = none) → s.calls = []) ∧
      ∀ pre c post, es = pre ++ .registerCallback c :: post → (∀ e ∈ pre, e.registered = none) →
        s.calls = List.replicate (post.countP TimerEvent.isTick) c := by
  obtain ⟨hs, htick, hcallback, hcalls⟩ := timerInit_handles h₀
  refine ⟨?_, fun hnone => ?_, fun pre c post heq hpre => ?_⟩
  · rw [run_currentTick hs h, htick]
    exact BitVec.zero_add _
  · obtain ⟨-, -, hsame⟩ := run_calls_none hs hcallback h hnone
    exact hsame.trans hcalls
  · subst heq
    obtain ⟨s₁, hrun, hrest⟩ := h.of_append
    obtain ⟨hs₁, hcallback₁, hcalls₁⟩ := run_calls_none hs hcallback hrun hpre
    cases hrest with
    | cons hstep hpost =>
        obtain ⟨hs₂, -, hcallback₂, hcalls₂⟩ := hstep.ticked hs₁
        rw [hcallback₁, Option.none_or] at hcallback₂
        rw [run_calls_some hs₂ hcallback₂ hpost, hcalls₂, hcalls₁, hcalls]
        rfl

theorem timer_counts_ticks_disk : ∃ s₀ s : TimerState Unit String,
    timerInit (.zeroed irqInitial.pic1 irqInitial.pic2) = .ok s₀ ∧
      Run TimerStep s₀ [.registerCallback "proc_timer_callback", .interrupt (.genuine 0),
        .interrupt (.genuine 14)] s ∧
      s.currentTick = 1 ∧ s.calls = ["proc_timer_callback"] := by
  obtain ⟨s₀, h₀⟩ : ∃ s₀ : TimerState Unit String,
    timerInit (.zeroed irqInitial.pic1 irqInitial.pic2) = .ok s₀ := ⟨_, rfl⟩
  have hrun : Run TimerStep s₀ [.registerCallback "proc_timer_callback", .interrupt (.genuine 0),
      .interrupt (.genuine 14)] _ :=
    .cons .registerCallback (.cons (.line rfl (.interrupt (by decide)))
      (.cons (.line rfl (.interrupt (by decide))) (.nil _)))
  obtain ⟨htick, -, hcalls⟩ := timer_counts_ticks irqInitial.pic1 irqInitial.pic2 h₀ hrun
  exact ⟨s₀, _, h₀, hrun, htick, hcalls [] _ _ rfl (by simp)⟩

end NimbleOS
