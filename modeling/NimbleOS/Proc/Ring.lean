import NimbleOS.Lib.Ring
import NimbleOS.Proc.Shared

/-!
# NimbleOS.Proc.Ring

The ring of processes.  `RingAt k xs` says that the links of the processes, followed from
the current one, go through `xs` and back.  Creation inserts behind the current process, a
switch turns the ring, and an exit steps back to the predecessor, takes the process out and
lets the switch land on the successor.  A switch returns where the directory that it loads
keeps the kernel (`Kernel.Loads`).
-/

namespace NimbleOS

/-- The link and the number of the process at an address. -/
def Kernel.nextOf (k : Kernel) (a : Nat) : Option Nat := (k.processes a).map Process.next

def Kernel.pidOf (k : Kernel) (a : Nat) : Option Nat := (k.processes a).map Process.pid

/-- The current process and the others, in the order of their turns. -/
structure RingAt (k : Kernel) (xs : List Nat) : Prop where
  current : k.currentProcess = xs.headD 0
  links : Ring.IsRing k.nextOf xs
  nodup : xs.Nodup
  pos : 0 ∉ xs

/-- The processes that are reached from the current one. -/
inductive Kernel.InRing (k : Kernel) : Nat → Prop where
  | current (h : k.processes k.currentProcess = some p) : InRing k k.currentProcess
  | next (h : InRing k a) (hp : k.processes a = some p) (hq : k.processes p.next = some q) :
      InRing k p.next

/-- The state in which a process is entered by the `iret` of the scheduler. -/
def Entered (k : Kernel) (iret : Iret) : Prop :=
  ∃ p, k.processes k.currentProcess = some p ∧ k.vm.cr3 = p.directory ∧
    k.esp0 = p.kernelStack ∧ iret = p.iret

theorem procSwitchProcess_entered {k k' : Kernel} (h : procSwitchProcess k regs = .ok (k', iret)) :
    Entered k' iret := by
  obtain ⟨k₁, old, p, -, -, hp, -, rfl, rfl⟩ := procSwitchProcess_of_ok h
  exact ⟨p, hp, rfl, rfl, rfl⟩

/-- The directories of these processes keep the kernel. -/
def Kernel.Loads (k : Kernel) (xs : List Nat) : Prop :=
  ∀ a ∈ xs, ∀ p, k.processes a = some p → k.vm.KeepsKernel p.directory

/-- What stays as it is between creations. -/
structure Kernel.SamePids (k k' : Kernel) : Prop where
  heapPointer : k'.heapPointer = k.heapPointer
  nextPid : k'.nextPid = k.nextPid
  pidOf : ∀ a, k'.pidOf a = k.pidOf a

theorem Kernel.SamePids.refl (k : Kernel) : k.SamePids k := ⟨rfl, rfl, fun _ => rfl⟩

theorem Kernel.SamePids.trans {k k' k'' : Kernel} (h : k.SamePids k') (h' : k'.SamePids k'') :
    k.SamePids k'' :=
  ⟨h'.heapPointer.trans h.heapPointer, h'.nextPid.trans h.nextPid,
    fun a => (h'.pidOf a).trans (h.pidOf a)⟩

/-! ## fields of the processes -/

theorem Kernel.nextOf_setNext (k : Kernel) (process next a : Nat) :
    (k.setNext process next).nextOf a =
      if a = process then (k.processes a).map fun _ => next else k.nextOf a := by
  rw [nextOf, setNext]
  dsimp only
  split
  · rw [Option.map_map]
    rfl
  · rfl

theorem Kernel.SameButNext.pidOf {k k' : Kernel} (h : k.SameButNext k') (a : Nat) :
    k'.pidOf a = k.pidOf a :=
  map_eq_of_map_eq (h a) fun _ => rfl

/-- Saving registers changes neither links nor numbers. -/
theorem Kernel.SameButSaved.nextOf {k k₁ : Kernel} (h : k.SameButSaved k₁) (a : Nat) :
    k₁.nextOf a = k.nextOf a :=
  map_eq_of_map_eq (h.processes a) fun _ => rfl

theorem Kernel.SameButSaved.samePids {k k₁ : Kernel} (h : k.SameButSaved k₁) : k.SamePids k₁ where
  heapPointer := h.heapPointer
  nextPid := h.nextPid
  pidOf := fun a => map_eq_of_map_eq (h.processes a) fun _ => rfl

theorem Kernel.Loads.saved {k k₁ : Kernel} (h : k.Loads xs) (hsame : k.SameButSaved k₁) :
    k₁.Loads xs := by
  intro a ha p hp
  obtain ⟨q, hq, heq⟩ := hsame.of_some hp
  have hdir : p.unsaved.directory = q.unsaved.directory := congrArg Process.directory heq
  rw [hsame.vm, show p.directory = q.directory from hdir]
  exact h a ha q hq

/-- While the kernel's half is shared every process can be switched to. -/
theorem Spaces.loads {k : Kernel} (h : Spaces kd k ds) (xs : List Nat) : k.Loads xs :=
  fun a _ p hp => h.keepsKernel (List.mem_cons_of_mem kd (h.directory a p hp))

/-- Links, and what is no directory, do not matter. -/
theorem Kernel.Loads.linked {k k' : Kernel} (h : k.Loads xs) (hmem : k'.vm.mem = k.vm.mem)
    (hcr3 : k'.vm.cr3 = k.vm.cr3) (hnext : k.SameButNext k') (hsub : ys ⊆ xs) : k'.Loads ys := by
  intro a ha p hp
  have hmap := hnext a
  rw [hp, Option.map_some, eq_comm, Option.map_eq_some_iff] at hmap
  obtain ⟨q, hq, heq⟩ := hmap
  have hdir : q.unlinked.directory = p.unlinked.directory := congrArg Process.directory heq
  rw [show p.directory = q.directory from hdir.symm]
  exact (h a (hsub ha) q hq).congr hmem hcr3

theorem Kernel.Loads.rotate {k : Kernel} (h : k.Loads xs) (n : Nat) : k.Loads (xs.rotate n) :=
  fun a ha => h a (List.mem_rotate.mp ha)

/-- A switch leads to one of the directories, and from there the others can be loaded too. -/
theorem Kernel.Loads.switched {k k' : Kernel} (h : k.Loads xs)
    (hrun : procSwitchProcess k regs = .ok (k', iret)) : k'.Loads xs := by
  obtain ⟨k₁, old, p, hsave, -, -, hkeeps, rfl, -⟩ := procSwitchProcess_of_ok hrun
  exact fun a ha q hq => hkeeps.inDir (h.saved (procSaveRegisters_same hsave) a ha q hq)

theorem Kernel.Loads.ticked {k k' : Kernel} (h : k.Loads xs)
    (hrun : procTimerCallback k regs = .ok (k', r)) : k'.Loads xs := by
  obtain ⟨-, rfl, -⟩ | ⟨iret, -, -, hswitch⟩ := procTimerCallback_of_ok hrun
  · exact h
  · exact h.switched hswitch

namespace RingAt

variable {k : Kernel} {xs : List Nat}

/-- Only the links and the current process matter. -/
theorem congr {k' : Kernel} (h : RingAt k xs) (hcurrent : k'.currentProcess = k.currentProcess)
    (hnext : ∀ a, k'.nextOf a = k.nextOf a) : RingAt k' xs :=
  { h with
    current := hcurrent.trans h.current
    links := h.links.congr fun a _ => hnext a }

theorem process_some (h : RingAt k xs) (ha : a ∈ xs) : ∃ p, k.processes a = some p := by
  obtain ⟨b, hb⟩ := h.links.some ha
  obtain ⟨p, hp, -⟩ := Option.map_eq_some_iff.mp hb
  exact ⟨p, hp⟩

theorem nil_iff (h : RingAt k xs) : k.currentProcess = 0 ↔ xs = [] := by
  cases xs with
  | nil => exact iff_of_true h.current rfl
  | cons a xs =>
      refine iff_of_false (fun h0 => h.pos ?_) (List.cons_ne_nil a xs)
      rw [← h0, h.current]
      exact List.mem_cons_self

/-- The current process and the one behind it. -/
theorem head (h : RingAt k (a :: xs)) : ∃ p ys, k.currentProcess = a ∧ k.processes a = some p ∧
    p.next ≠ 0 ∧ (a :: xs).rotate 1 = p.next :: ys := by
  obtain ⟨b, ys, hrotate, hnext⟩ := Ring.IsRing.next_head h.links
  obtain ⟨p, hp, rfl⟩ := Option.map_eq_some_iff.mp hnext
  refine ⟨p, ys, h.current, hp, fun h0 => h.pos (List.mem_rotate.mp (?_ : 0 ∈ (a :: xs).rotate 1)),
    hrotate⟩
  rw [hrotate, h0]
  exact List.mem_cons_self

/-- The ring is what is reached from the current process. -/
theorem inRing_iff (h : RingAt k xs) (hnull : k.processes 0 = none) : k.InRing a ↔ a ∈ xs := by
  constructor
  · intro hin
    induction hin with
    | current hp =>
        cases xs with
        | nil =>
            rw [show k.currentProcess = 0 from h.current, hnull] at hp
            cases hp
        | cons b xs => exact h.current ▸ List.mem_cons_self
    | next _ hp _ ih => exact h.links.closed ih (Option.map_eq_some_iff.mpr ⟨_, hp, rfl⟩)
  · intro ha
    cases xs with
    | nil => cases ha
    | cons b xs =>
        obtain ⟨p, -, hcurrent, hp, -⟩ := h.head
        have hfirst : k.InRing b := hcurrent ▸ .current (hcurrent ▸ hp)
        refine Ring.Leads.spread h.links hfirst (fun x y hx hy hmem => ?_) a ha
        obtain ⟨q, hq, rfl⟩ := Option.map_eq_some_iff.mp hy
        obtain ⟨r, hr⟩ := h.process_some hmem
        exact .next hx hq hr

/-! ## a switch -/

theorem enter (h : RingAt k (a :: xs)) (hp : k.processes a = some p) (q : Process) :
    RingAt (k.enter p.next q) ((a :: xs).rotate 1) where
  current := by
    obtain ⟨p', ys, -, hp', -, hrotate⟩ := h.head
    obtain rfl := Option.some.inj (hp.symm.trans hp')
    rw [hrotate]
    rfl
  links := h.links.rotate.congr fun _ _ => rfl
  nodup := List.nodup_rotate.mpr h.nodup
  pos := fun h0 => h.pos (List.mem_rotate.mp h0)

/-- **A switch** that returns has turned the ring by one process, and enters the one that is
now current. -/
theorem switched {k' : Kernel} (h : RingAt k xs) (hne : xs ≠ [])
    (hrun : procSwitchProcess k regs = .ok (k', iret)) :
    RingAt k' (xs.rotate 1) ∧ Entered k' iret ∧ k.SamePids k' := by
  obtain ⟨a, xs, rfl⟩ := List.exists_cons_of_ne_nil hne
  have hentered := procSwitchProcess_entered hrun
  obtain ⟨k₁, old, q, hsave, hold, -, -, rfl, -⟩ := procSwitchProcess_of_ok hrun
  have hsame := procSaveRegisters_same hsave
  have h₁ : RingAt k₁ (a :: xs) := h.congr hsame.currentProcess hsame.nextOf
  rw [show k₁.currentProcess = a from h₁.current] at hold
  exact ⟨h₁.enter hold q, hentered, hsame.samePids.trans ⟨rfl, rfl, fun _ => rfl⟩⟩

/-- Without a process it does not return. -/
theorem ne_nil_of_switch {k' : Kernel} (h : RingAt k xs) (hnull : k.processes 0 = none)
    (hrun : procSwitchProcess k regs = .ok (k', iret)) : xs ≠ [] := by
  intro hnil
  obtain ⟨k₁, old, -, hsave, hold, -⟩ := procSwitchProcess_of_ok hrun
  obtain ⟨p, hp, -⟩ := (procSaveRegisters_same hsave).of_some hold
  rw [(procSaveRegisters_same hsave).currentProcess, h.nil_iff.mpr hnil, hnull] at hp
  cases hp

/-- It returns if the directory of the next process keeps the kernel. -/
theorem switch (h : RingAt k xs) (hne : xs ≠ []) (hloads : k.Loads xs) (regs : Option Registers) :
    ∃ k' iret, procSwitchProcess k regs = .ok (k', iret) ∧ RingAt k' (xs.rotate 1) ∧
      Entered k' iret ∧ k.SamePids k' := by
  obtain ⟨a, xs, rfl⟩ := List.exists_cons_of_ne_nil hne
  obtain ⟨p, -, hcurrent, hp, -⟩ := h.head
  obtain ⟨k₁, hsave⟩ : ∃ k₁, procSaveRegisters k regs = .ok k₁ := by
    cases regs with
    | none => exact ⟨k, rfl⟩
    | some r => exact ⟨_, by rw [procSaveRegisters, hcurrent, hp]⟩
  have hsame := procSaveRegisters_same hsave
  have h₁ : RingAt k₁ (a :: xs) := h.congr hsame.currentProcess hsame.nextOf
  obtain ⟨old, ys, hcurrent₁, hold, -, hrotate⟩ := h₁.head
  have hmem : old.next ∈ a :: xs := List.mem_rotate.mp (by
    rw [hrotate]
    exact List.mem_cons_self)
  obtain ⟨q, hq⟩ := h₁.process_some hmem
  have hrun := procSwitchProcess_eq hsave (hcurrent₁ ▸ hold) hq
    ((hloads.saved hsame) _ hmem q hq)
  exact ⟨_, _, hrun, h.switched (List.cons_ne_nil a xs) hrun⟩

/-- A tick does nothing where there is no other process. -/
theorem tick_alone (h : RingAt k xs) (halone : k.Alone) : xs.rotate 1 = xs := by
  cases xs with
  | nil => rfl
  | cons a xs =>
      obtain ⟨p, ys, hcurrent, hp, hb0, hrotate⟩ := h.head
      have hself : p.next = a := by
        rcases halone with hzero | ⟨q, hq, hnext⟩
        · exact absurd (h.nil_iff.mp hzero) (List.cons_ne_nil a xs)
        · rw [hcurrent, hp] at hq
          obtain rfl := Option.some.inj hq
          exact hcurrent ▸ hnext.resolve_right hb0
      cases xs with
      | nil => exact List.rotate_singleton a 1
      | cons x xs =>
          rw [List.rotate_cons_succ, List.rotate_zero, List.cons_append] at hrotate
          obtain rfl : x = a := (List.cons.inj hrotate).1.trans hself
          exact absurd List.mem_cons_self (List.nodup_cons.mp h.nodup).1

/-- **A tick** is a switch if there is another process, and otherwise nothing; either way
the ring is turned. -/
theorem ticked {k' : Kernel} (h : RingAt k xs) (hrun : procTimerCallback k regs = .ok (k', r)) :
    RingAt k' (xs.rotate 1) ∧ (∀ iret, r = some iret → Entered k' iret) ∧ k.SamePids k' := by
  rcases procTimerCallback_of_ok hrun with ⟨rfl, rfl, halone⟩ | ⟨iret, rfl, hother, hswitch⟩
  · rw [h.tick_alone halone]
    exact ⟨h, fun _ hr => (nomatch hr), .refl k'⟩
  · have hne : xs ≠ [] := fun hnil => hother (.inl (h.nil_iff.mpr hnil))
    obtain ⟨hring, hentered, hsame⟩ := h.switched hne hswitch
    exact ⟨hring, fun _ hr => Option.some.inj hr ▸ hentered, hsame⟩

/-- It returns if the directories keep the kernel. -/
theorem tick (h : RingAt k xs) (hloads : k.Loads xs) (regs : Registers) :
    ∃ k' r, procTimerCallback k regs = .ok (k', r) ∧ RingAt k' (xs.rotate 1) ∧
      (∀ iret, r = some iret → Entered k' iret) ∧ k.SamePids k' := by
  obtain ⟨k', r, hrun⟩ : ∃ k' r, procTimerCallback k regs = .ok (k', r) := by
    rw [procTimerCallback]
    by_cases hzero : k.currentProcess = 0
    · exact ⟨k, none, if_pos hzero⟩
    rw [if_neg hzero]
    have hne : xs ≠ [] := fun hnil => hzero (h.nil_iff.mpr hnil)
    obtain ⟨a, ys, rfl⟩ := List.exists_cons_of_ne_nil hne
    obtain ⟨p, -, hcurrent, hp, -⟩ := h.head
    rw [hcurrent, hp]
    dsimp only
    split
    · exact ⟨k, none, rfl⟩
    · split
      · obtain ⟨k', iret, hrun, -⟩ := h.switch hne hloads (some regs)
        exact ⟨k', some iret, by rw [hrun]; rfl⟩
      · exact ⟨k, none, rfl⟩
  exact ⟨k', r, hrun, h.ticked hrun⟩

/-! ## insertion -/

/-- **Insertion** of a new process, behind the current one if there is one. -/
theorem insert {k₁ k' : Kernel} (h : RingAt k xs) (hadds : k.Adds process p k₁)
    (hnew : process ∉ xs) (hpos : process ≠ 0) (hinsert : procInsert k₁ process = .ok k') :
    RingAt k' (Ring.insert process xs) := by
  have hprocess : k₁.processes process = some p := by
    rw [hadds.processes]
    exact if_pos rfl
  have hold : ∀ a ∈ xs, k₁.processes a = k.processes a := fun a ha => by
    rw [hadds.processes]
    exact if_neg fun (heq : a = process) => hnew (heq ▸ ha)
  have hnext : ∀ a ∈ xs, k₁.nextOf a = k.nextOf a := fun a ha => by
    rw [Kernel.nextOf, hold a ha]
    rfl
  have hnodup : (Ring.insert process xs).Nodup := Ring.nodup_insert.mpr ⟨hnew, h.nodup⟩
  have hpos' : 0 ∉ Ring.insert process xs := fun h0 =>
    (Ring.mem_insert.mp h0).elim (fun heq => hpos heq.symm) h.pos
  cases xs with
  | nil =>
      have hzero : k₁.currentProcess = 0 := hadds.currentProcess.trans (h.nil_iff.mpr rfl)
      rw [procInsert, if_neg (not_not.mpr hzero), Kernel.storeNext_of_ne _ hpos] at hinsert
      obtain rfl := Except.ok.inj hinsert
      refine ⟨rfl, ?_, hnodup, hpos'⟩
      show Kernel.nextOf _ process = some process
      rw [Kernel.nextOf_setNext, if_pos rfl]
      show (k₁.processes process).map _ = _
      rw [hprocess]
      rfl
  | cons a xs =>
      obtain ⟨q, -, hcurrent, hq, hb0, -⟩ := h.head
      have hcur : k₁.currentProcess = a := hadds.currentProcess.trans hcurrent
      have hq₁ : k₁.processes a = some q := (hold a List.mem_cons_self).trans hq
      have hne : k₁.currentProcess ≠ 0 := by
        rw [hcur]
        exact fun h0 => h.pos (h0 ▸ List.mem_cons_self)
      have hap : a ≠ process := fun heq => hnew (heq ▸ List.mem_cons_self)
      rw [procInsert, if_pos hne, hcur, hq₁] at hinsert
      dsimp only at hinsert
      rw [if_pos hb0, Kernel.storeNext_of_ne _ hpos] at hinsert
      obtain rfl := Except.ok.inj hinsert
      refine ⟨hcur, ?_, hnodup, hpos'⟩
      refine h.links.insert ?_ ?_ fun x hx => ?_
      · rw [Kernel.nextOf_setNext, if_neg hap, Kernel.nextOf_setNext, if_pos rfl, hq₁]
        rfl
      · rw [Kernel.nextOf_setNext, if_pos rfl, Kernel.setNext, Kernel.nextOf, hq]
        dsimp only
        rw [if_neg (Ne.symm hap), hprocess]
        rfl
      · have hxp : x ≠ process := fun heq => hnew (heq ▸ List.mem_cons_of_mem a hx)
        have hxa : x ≠ a := fun heq => (List.nodup_cons.mp h.nodup).1 (heq ▸ hx)
        rw [Kernel.nextOf_setNext, if_neg hxp, Kernel.nextOf_setNext, if_neg hxa,
          hnext x (List.mem_cons_of_mem a hx)]

/-! ## the loops over the ring -/

/-- The search along a path to the current process ends at the last cell. -/
theorem findPrevious_of_leads {k : Kernel} (h : Ring.Leads k.nextOf a xs k.currentProcess)
    (hnot : k.currentProcess ∉ xs) (hfuel : xs.length < fuel) :
    procFindPrevious k fuel a = .ok ((a :: xs).getLast (List.cons_ne_nil a xs)) := by
  induction xs generalizing a fuel with
  | nil =>
      obtain ⟨fuel, rfl⟩ := Nat.exists_eq_succ_of_ne_zero (Nat.ne_zero_of_lt hfuel)
      obtain ⟨p, hp, hnext⟩ := Option.map_eq_some_iff.mp (h : k.nextOf a = _)
      rw [procFindPrevious, hp]
      exact if_pos hnext
  | cons x xs ih =>
      obtain ⟨fuel, rfl⟩ := Nat.exists_eq_succ_of_ne_zero (Nat.ne_zero_of_lt hfuel)
      obtain ⟨p, hp, rfl⟩ := Option.map_eq_some_iff.mp (h.1 : k.nextOf a = _)
      obtain ⟨hx, hxs⟩ := not_or.mp (mt List.mem_cons.mpr hnot)
      rw [procFindPrevious, hp]
      dsimp only
      rw [if_neg (Ne.symm hx), ih h.2 hxs (Nat.lt_of_succ_lt_succ hfuel),
        List.getLast_cons (List.cons_ne_nil _ _)]

/-- The walk along a path to the current process prints every cell once. -/
theorem printFrom_of_leads {k : Kernel} (h : Ring.Leads k.nextOf a xs k.currentProcess)
    (hnot : k.currentProcess ∉ a :: xs) :
    ∃ pids, (∀ fuel, xs.length + 1 < fuel → procPrintFrom k fuel a = .ok pids) ∧
      (a :: xs).map k.pidOf = pids.map some := by
  induction xs generalizing a with
  | nil =>
      obtain ⟨p, hp, hnext⟩ := Option.map_eq_some_iff.mp (h : k.nextOf a = _)
      have ha : a ≠ k.currentProcess := fun heq => hnot (heq ▸ List.mem_cons_self)
      refine ⟨[p.pid], fun fuel hfuel => ?_, by rw [List.map_cons, Kernel.pidOf, hp]; rfl⟩
      obtain ⟨fuel, rfl⟩ := Nat.exists_eq_succ_of_ne_zero (Nat.ne_zero_of_lt hfuel)
      have hfuel' : fuel ≠ 0 := Nat.ne_zero_of_lt (Nat.lt_of_succ_lt_succ hfuel)
      obtain ⟨fuel, rfl⟩ := Nat.exists_eq_succ_of_ne_zero hfuel'
      rw [procPrintFrom, if_neg ha, hp]
      dsimp only
      rw [hnext]
      show (procPrintFrom k (fuel + 1) k.currentProcess >>= _) = _
      rw [procPrintFrom, if_pos rfl]
      rfl
  | cons x xs ih =>
      obtain ⟨p, hp, rfl⟩ := Option.map_eq_some_iff.mp (h.1 : k.nextOf a = _)
      obtain ⟨ha, hxs⟩ := not_or.mp (mt List.mem_cons.mpr hnot)
      obtain ⟨pids, hrun, hpids⟩ := ih h.2 hxs
      refine ⟨p.pid :: pids, fun fuel hfuel => ?_, ?_⟩
      · obtain ⟨fuel, rfl⟩ := Nat.exists_eq_succ_of_ne_zero (Nat.ne_zero_of_lt hfuel)
        rw [procPrintFrom, if_neg (Ne.symm ha), hp]
        dsimp only
        rw [hrun fuel (Nat.lt_of_succ_lt_succ hfuel)]
        rfl
      · rw [List.map_cons, hpids, Kernel.pidOf, hp]
        rfl

/-- **proc_print_processes** returns: it prints every process of the ring once. -/
theorem print (h : RingAt k (a :: xs)) :
    ∃ pids, (∀ fuel, xs.length + 1 < fuel → procPrintProcesses k fuel = .ok pids) ∧
      (a :: xs).map k.pidOf = pids.map some := by
  have hcurrent : k.currentProcess = a := h.current
  cases xs with
  | nil =>
      obtain ⟨p, hp, hnext⟩ := Option.map_eq_some_iff.mp (h.links : k.nextOf a = _)
      refine ⟨[p.pid], fun fuel hfuel => ?_, by rw [List.map_cons, Kernel.pidOf, hp]; rfl⟩
      obtain ⟨fuel, rfl⟩ := Nat.exists_eq_succ_of_ne_zero (Nat.ne_zero_of_lt hfuel)
      rw [procPrintProcesses, hcurrent, hp]
      dsimp only
      rw [hnext, procPrintFrom, if_pos hcurrent.symm]
      rfl
  | cons x xs =>
      obtain ⟨p, hp, rfl⟩ := Option.map_eq_some_iff.mp (h.links.1 : k.nextOf a = _)
      have hrest : Ring.Leads k.nextOf p.next xs k.currentProcess := hcurrent ▸ h.links.2
      obtain ⟨pids, hrun, hpids⟩ :=
        printFrom_of_leads hrest (hcurrent ▸ (List.nodup_cons.mp h.nodup).1)
      refine ⟨p.pid :: pids, fun fuel hfuel => ?_, ?_⟩
      · rw [procPrintProcesses, hcurrent, hp]
        dsimp only
        rw [hrun fuel (Nat.lt_of_succ_lt hfuel)]
        rfl
      · rw [List.map_cons, hpids, Kernel.pidOf, hp]
        rfl

/-! ## exit -/

/-- Giving frames back leaves the processes alone. -/
theorem freeSpace {k₁ : Kernel} (h : RingAt k xs) (hfree : procFreeSpace k p = .ok k₁) :
    RingAt k₁ xs ∧ k.SamePids k₁ := by
  obtain ⟨code, stack, pd, rfl⟩ := procFreeSpace_of_ok hfree
  exact ⟨h.congr rfl fun _ => rfl, ⟨rfl, rfl, fun _ => rfl⟩⟩

/-- The last element comes to the front. -/
theorem head_rotate_last (b : Nat) (xs : List Nat) : ∃ ys, (b :: xs).rotate xs.length =
    (b :: xs).getLast (List.cons_ne_nil b xs) :: ys := by
  have hhead : ((b :: xs).rotate xs.length).head? = some ((b :: xs).getLast (List.cons_ne_nil b xs)) := by
    rw [List.head?_rotate (by simp), List.getLast_eq_getElem, List.getElem?_eq_getElem (by simp)]
    rfl
  obtain ⟨ys, hys⟩ := List.head?_eq_some_iff.mp hhead
  exact ⟨ys, hys⟩

/-- **Taking the current process out**: the predecessor is found, its link turned, and it is
the current process for the time being. -/
theorem unlink {k₁ : Kernel} (h : RingAt k (a :: b :: xs)) (hp : k.processes a = some p)
    (hfree : procFreeSpace k p = .ok k₁) :
    ∃ k₂, (∀ fuel, xs.length < fuel → procUnlinkCurrent k fuel = .ok k₂) ∧
      RingAt k₂ ((b :: xs).rotate xs.length) ∧ k.SamePids k₂ ∧ k₂.vm.mem = k.vm.mem ∧
      k₂.vm.cr3 = k.vm.cr3 ∧ k.SameButNext k₂ := by
  obtain ⟨h₁, hsame⟩ := h.freeSpace hfree
  obtain ⟨code, stack, pd, hk₁⟩ := procFreeSpace_of_ok hfree
  have hcurrent : k₁.currentProcess = a := h₁.current
  obtain ⟨p', hp', hb⟩ := Option.map_eq_some_iff.mp (h.links.1 : k.nextOf a = _)
  obtain rfl := Option.some.inj (hp.symm.trans hp')
  obtain ⟨hnot, hnodup⟩ := List.nodup_cons.mp h.nodup
  have hne : b ≠ a := fun heq => hnot (heq ▸ List.mem_cons_self)
  have hfind : ∀ fuel, xs.length < fuel →
      procFindPrevious k₁ fuel b = .ok ((b :: xs).getLast (List.cons_ne_nil b xs)) := fun _ =>
    findPrevious_of_leads (hcurrent ▸ h₁.links.2)
      (hcurrent ▸ fun hmem => hnot (List.mem_cons_of_mem b hmem))
  generalize hlast : (b :: xs).getLast (List.cons_ne_nil b xs) = l at hfind
  have hl : l ∈ b :: xs := hlast ▸ List.getLast_mem _
  refine ⟨{ k₁.setNext l b with currentProcess := l }, fun fuel hfuel => ?_, ⟨?_, ?_, ?_, ?_⟩, ?_,
    by rw [hk₁]; rfl, by rw [hk₁]; rfl, ?_⟩
  · rw [procUnlinkCurrent, show k.currentProcess = a from h.current, hp]
    simp only [hfree, bind, Except.bind, hcurrent, hb, if_neg hne, hfind fuel hfuel, pure, Except.pure]
  · obtain ⟨ys, hys⟩ := head_rotate_last b xs
    rw [hys, hlast]
    rfl
  · refine Ring.IsRing.turns (h₁.links.tail hnodup ?_ fun x _ hx => ?_) _
    · obtain ⟨q, hq⟩ := h₁.process_some (List.mem_cons_of_mem a hl)
      rw [hlast]
      show (k₁.setNext l b).nextOf l = _
      rw [Kernel.nextOf_setNext, if_pos rfl, hq]
      rfl
    · rw [hlast] at hx
      show (k₁.setNext l b).nextOf x = _
      rw [Kernel.nextOf_setNext, if_neg hx]
  · exact List.nodup_rotate.mpr hnodup
  · exact fun h0 => h.pos (List.mem_cons_of_mem a (List.mem_rotate.mp h0))
  · exact hsame.trans ⟨rfl, rfl, (k₁.sameButNext_setNext l b).pidOf⟩
  · have hnext := k₁.sameButNext_setNext l b
    rw [hk₁] at hnext ⊢
    exact hnext

/-- An exit with enough fuel takes the current process out and then switches. -/
theorem exit_eq {k₁ : Kernel} (h : RingAt k (a :: b :: xs)) (hp : k.processes a = some p)
    (hfree : procFreeSpace k p = .ok k₁) :
    ∃ k₂, RingAt k₂ ((b :: xs).rotate xs.length) ∧ k.SamePids k₂ ∧ k₂.vm.mem = k.vm.mem ∧
      k₂.vm.cr3 = k.vm.cr3 ∧ k.SameButNext k₂ ∧
      ∀ fuel, xs.length + 1 < fuel → procExitCurrentProcess k fuel = procSwitchProcess k₂ none := by
  obtain ⟨k₂, hunlink, hring, hsame, hmem, hcr3, hnext⟩ := h.unlink hp hfree
  obtain ⟨ys, hys⟩ := head_rotate_last b xs
  have hlength : ys.length = xs.length := by
    have hlen := congrArg List.length hys
    rw [List.length_rotate] at hlen
    exact (Nat.succ.inj hlen).symm
  obtain ⟨pids, hprint, -⟩ := (hys ▸ hring).print
  refine ⟨k₂, hring, hsame, hmem, hcr3, hnext, fun fuel hfuel => ?_⟩
  rw [procExitCurrentProcess_eq, hunlink fuel (Nat.lt_of_succ_lt hfuel)]
  show (procPrintProcesses k₂ fuel >>= fun _ => procSwitchProcess k₂ none) = _
  rw [hprint fuel (hlength ▸ hfuel)]
  rfl

/-- Turned by one more, the ring without the current process begins with its successor. -/
theorem rotate_back (b : Nat) (xs : List Nat) :
    ((b :: xs).rotate xs.length).rotate 1 = b :: xs := by
  have hwhole := List.rotate_length (b :: xs)
  rw [List.length_cons] at hwhole
  rw [List.rotate_rotate, hwhole]

/-- **An exit** returns if the directory of the successor keeps the kernel: the current process
is out, and its successor is entered. -/
theorem exit {k₁ : Kernel} (h : RingAt k (a :: b :: xs)) (hp : k.processes a = some p)
    (hfree : procFreeSpace k p = .ok k₁) (hloads : k.Loads (a :: b :: xs)) : ∃ k' iret,
      (∀ fuel, xs.length + 1 < fuel → procExitCurrentProcess k fuel = .ok (k', iret)) ∧
        RingAt k' (b :: xs) ∧ Entered k' iret ∧ k.SamePids k' := by
  obtain ⟨k₂, hring, hsame, hmem, hcr3, hnext, hexit⟩ := h.exit_eq hp hfree
  have hsub : (b :: xs).rotate xs.length ⊆ a :: b :: xs := fun x hx =>
    List.mem_cons_of_mem a (List.mem_rotate.mp hx)
  obtain ⟨k', iret, hswitch, hring', hentered, hsame'⟩ :=
    hring.switch (by simp) (hloads.linked hmem hcr3 hnext hsub) none
  rw [rotate_back] at hring'
  exact ⟨k', iret, fun fuel hfuel => (hexit fuel hfuel).trans hswitch, hring', hentered,
    hsame.trans hsame'⟩

/-- Where an exit returns, there is another process, and the frames could be given back. -/
theorem exit_of_ok (h : RingAt k xs) (hnull : k.processes 0 = none)
    (hrun : procExitCurrentProcess k fuel = .ok r) : ∃ a b ys p k₁, xs = a :: b :: ys ∧
      k.processes a = some p ∧ procFreeSpace k p = .ok k₁ := by
  rw [procExitCurrentProcess_eq] at hrun
  obtain ⟨k₂, hunlink, -⟩ := bind_eq_ok.mp hrun
  rw [procUnlinkCurrent] at hunlink
  cases hp : k.processes k.currentProcess with
  | none =>
      rw [hp] at hunlink
      cases hunlink
  | some p =>
      rw [hp] at hunlink
      obtain ⟨k₁, hfree, hunlink⟩ := bind_eq_ok.mp hunlink
      match xs, h with
      | [], h =>
          rw [show k.currentProcess = 0 from h.current, hnull] at hp
          cases hp
      | [a], h =>
          have hcurrent : k.currentProcess = a := h.current
          obtain ⟨q, hq, hnext⟩ := Option.map_eq_some_iff.mp (h.links : k.nextOf a = _)
          obtain rfl := Option.some.inj (hp.symm.trans (hcurrent ▸ hq))
          rw [if_pos (hnext.trans (h.freeSpace hfree).1.current.symm)] at hunlink
          cases hunlink
      | a :: b :: ys, h =>
          exact ⟨a, b, ys, p, k₁, rfl, (show k.currentProcess = a from h.current) ▸ hp, hfree⟩

end RingAt

/-! ## runs -/

/-- A call of `proc_run_code` with a structure for the process, of `proc_switch_process`, of the timer's callback or of
`proc_exit_current_process`. -/
inductive SchedEvent where
  | create (code : Nat → BitVec 8) (len : Nat)
  | switch (regs : Option Registers)
  | tick (regs : Registers)
  | exit

/-- The call returns, or enters a process by the frame of its `iret`. -/
inductive SchedReturns : Kernel → SchedEvent → Kernel → Option Iret → Prop where
  | create {k k' : Kernel} : (kmalloc k sizeofProcess).1 ≠ 0 → procRunCode k code len = .ok k' →
      SchedReturns k (.create code len) k' none
  | switch {k k' : Kernel} : procSwitchProcess k regs = .ok (k', iret) →
      SchedReturns k (.switch regs) k' (some iret)
  | tick {k k' : Kernel} : procTimerCallback k regs = .ok (k', r) →
      SchedReturns k (.tick regs) k' r
  | exit {k k' : Kernel} :
      (∃ n, ∀ fuel, n ≤ fuel → procExitCurrentProcess k fuel = .ok (k', iret)) →
      SchedReturns k .exit k' (some iret)

def SchedStep (k : Kernel) (e : SchedEvent) (k' : Kernel) : Prop := ∃ r, SchedReturns k e k' r

/-- **An exit** that returns has taken the first process out of the ring. -/
theorem RingAt.exited {k k' : Kernel} (h : RingAt k xs) (hnull : k.processes 0 = none)
    (hexit : SchedReturns k .exit k' (some iret)) : ∃ a b ys, xs = a :: b :: ys ∧
      RingAt k' (b :: ys) ∧ Entered k' iret ∧ k.SamePids k' ∧ (k.Loads xs → k'.Loads (b :: ys)) := by
  cases hexit with
  | exit hexit =>
      obtain ⟨n, hexit⟩ := hexit
      obtain ⟨a, b, ys, p, k₁, rfl, hp, hfree⟩ := h.exit_of_ok hnull (hexit n (Nat.le_refl n))
      obtain ⟨k₂, hring, hsame, hmem, hcr3, hnext, hrun⟩ := h.exit_eq hp hfree
      have hfuel : ys.length + 1 < n + (ys.length + 2) := by omega
      have hswitch := (hrun _ hfuel).symm.trans (hexit _ (Nat.le_add_right n _))
      obtain ⟨hring', hentered, hsame'⟩ := hring.switched (by simp) hswitch
      rw [RingAt.rotate_back] at hring'
      exact ⟨a, b, ys, rfl, hring', hentered, hsame.trans hsame', fun hloads =>
        (hloads.linked hmem hcr3 hnext (List.subset_cons_self a _)).switched hswitch⟩

/-- The abstract ring, and the processes that were created, the last one first, and that
have exited. -/
structure History where
  ring : List Nat
  created : List Nat
  exited : List Nat

def History.empty : History := { ring := [], created := [], exited := [] }

/-- Creation inserts a new process behind the current one, switches and ticks turn the ring,
an exit removes the current process. -/
inductive HistoryStep : History → SchedEvent → History → Prop where
  | create {h : History} : p ∉ h.created → HistoryStep h (.create code len)
      { h with ring := Ring.insert p h.ring, created := p :: h.created }
  | switch {h : History} : HistoryStep h (.switch regs) { h with ring := h.ring.rotate 1 }
  | tick {h : History} : HistoryStep h (.tick regs) { h with ring := h.ring.rotate 1 }
  | exit {h : History} : h.ring = a :: b :: xs →
      HistoryStep h .exit { h with ring := b :: xs, exited := a :: h.exited }

/-- The history so far, in the kernel's data. -/
structure Tracks (k : Kernel) (h : History) : Prop where
  ring : RingAt k h.ring
  members : ∀ a, a ∈ h.ring ↔ a ∈ h.created ∧ a ∉ h.exited
  exited : ∀ a ∈ h.exited, a ∈ h.created
  below : ∀ a ∈ h.created, a < k.heapPointer
  heap : 0 < k.heapPointer ∧ k.heapPointer < kernelHeapEndVirt
  null : k.pidOf 0 = none
  pids : h.created.map k.pidOf =
    (List.range h.created.length).reverse.map fun i => some (u32 (i + 1))
  nextPid : k.nextPid = u32 (h.created.length + 1)

theorem tracks_boot (vm : Vm Pmm) (esp0 : Nat) : Tracks (bootKernel vm esp0) .empty where
  ring := ⟨rfl, trivial, List.nodup_nil, List.not_mem_nil⟩
  members := fun a => iff_of_false List.not_mem_nil fun h => List.not_mem_nil h.1
  exited := fun a ha => absurd ha List.not_mem_nil
  below := fun a ha => absurd ha List.not_mem_nil
  heap := by
    show 0 < kernelHeapBaseVirt ∧ kernelHeapBaseVirt < kernelHeapEndVirt
    decide
  null := rfl
  pids := rfl
  nextPid := rfl

namespace Tracks

variable {k k' : Kernel} {h : History}

/-- Between creations only the ring changes. -/
theorem turn {xs gone : List Nat} (ht : Tracks k h) (hring : RingAt k' xs) (hsame : k.SamePids k')
    (hexited : ∀ a ∈ gone, a ∈ h.created) (hmembers : ∀ a, a ∈ xs ↔ a ∈ h.created ∧ a ∉ gone) :
    Tracks k' { ring := xs, created := h.created, exited := gone } where
  ring := hring
  members := hmembers
  exited := hexited
  below := fun a ha => hsame.heapPointer ▸ ht.below a ha
  heap := hsame.heapPointer ▸ ht.heap
  null := (hsame.pidOf 0).trans ht.null
  pids := by rw [← ht.pids]; exact List.map_congr_left fun a _ => hsame.pidOf a
  nextPid := hsame.nextPid.trans ht.nextPid

/-- The heap pointer has moved on, and has not wrapped around. -/
theorem heapPointer_lt (ht : Tracks k h) (hadds : k.Adds a p k₁)
    (hmalloc : (kmalloc k sizeofProcess).1 = k.heapPointer) :
    k.heapPointer < k₁.heapPointer ∧ k₁.heapPointer < kernelHeapEndVirt := by
  obtain ⟨hpos, hlt⟩ := ht.heap
  have hend : kernelHeapEndVirt = 0xD0400000 := rfl
  obtain ⟨hfirst, -, hnext⟩ := kmalloc_of_ne_zero k (by rw [hmalloc]; omega)
  rw [u32_of_lt (by unfold sizeofProcess; omega)] at hfirst hnext
  rw [hadds.heapPointer]
  generalize (kmalloc k sizeofProcess).2 = k₂ at hnext
  unfold kmalloc sizeofProcess at *
  split
  · dsimp only
    omega
  · next hstack =>
      dsimp only
      have hwrap : u32 (k₂.heapPointer + pageSize) = k₂.heapPointer + pageSize :=
        u32_of_lt (by unfold pageSize; omega)
      unfold pageSize at *
      omega

/-- The new process is at the heap pointer, where no process has been. -/
theorem create (ht : Tracks k h) (hprocess : (kmalloc k sizeofProcess).1 ≠ 0)
    (hrun : procRunCode k code len = .ok k') :
    k.heapPointer ∉ h.created ∧ Tracks k'
      { h with ring := Ring.insert k.heapPointer h.ring, created := k.heapPointer :: h.created } := by
  obtain ⟨k₁, stack, pd, hmalloc, hne, hadds, hinsert⟩ := procRunCode_parts hprocess hrun
  have hheap := ht.heapPointer_lt hadds hmalloc
  have hsame := procInsert_same hne hinsert
  have hnew : k.heapPointer ∉ h.created := fun hmem => Nat.lt_irrefl _ (ht.below _ hmem)
  have hring : k.heapPointer ∉ h.ring := fun hmem => hnew ((ht.members _).mp hmem).1
  have hpid : ∀ a, k'.pidOf a =
      if a = k.heapPointer then some k.nextPid else k.pidOf a := fun a => by
    rw [(procInsert_sameButNext hne hinsert).pidOf, Kernel.pidOf, hadds.processes]
    dsimp only
    split <;> rfl
  refine ⟨hnew, ht.ring.insert hadds hring hne hinsert, fun a => ?_, ?_, ?_, ?_,
    (hpid 0).trans ((if_neg (Ne.symm hne)).trans ht.null), ?_, ?_⟩
  · rw [Ring.mem_insert, ht.members, List.mem_cons]
    constructor
    · rintro (rfl | ⟨hcreated, hexited⟩)
      · exact ⟨.inl rfl, fun hmem => hnew (ht.exited _ hmem)⟩
      · exact ⟨.inr hcreated, hexited⟩
    · rintro ⟨rfl | hcreated, hexited⟩
      · exact .inl rfl
      · exact .inr ⟨hcreated, hexited⟩
  · exact fun a ha => List.mem_cons_of_mem _ (ht.exited a ha)
  · intro a ha
    rw [hsame.heapPointer]
    rcases List.mem_cons.mp ha with rfl | ha
    · exact hheap.1
    · exact Nat.lt_trans (ht.below a ha) hheap.1
  · rw [hsame.heapPointer]
    exact ⟨Nat.zero_lt_of_lt hheap.1, hheap.2⟩
  · have hold : h.created.map k'.pidOf = h.created.map k.pidOf :=
      List.map_congr_left fun a ha => (hpid a).trans
        (if_neg fun (heq : a = k.heapPointer) => hnew (heq ▸ ha))
    rw [List.map_cons, hold, ht.pids, hpid, if_pos rfl, ht.nextPid, List.length_cons,
      List.range_succ, List.reverse_append]
    rfl
  · rw [hsame.nextPid, hadds.nextPid, ht.nextPid, List.length_cons]
    unfold u32
    omega

theorem null_process (ht : Tracks k h) : k.processes 0 = none := Option.map_eq_none_iff.mp ht.null

/-- **Step lemma**: every call does to the ring what the abstract step says. -/
theorem step (ht : Tracks k h) (hstep : SchedStep k e k') :
    ∃ h', HistoryStep h e h' ∧ Tracks k' h' := by
  have hrotate : ∀ a, a ∈ h.ring.rotate 1 ↔ a ∈ h.created ∧ a ∉ h.exited := fun a =>
    List.mem_rotate.trans (ht.members a)
  obtain ⟨r, hreturns⟩ := hstep
  cases hreturns with
  | create hprocess hrun =>
      obtain ⟨hnew, ht'⟩ := ht.create hprocess hrun
      exact ⟨_, .create hnew, ht'⟩
  | switch hrun =>
      obtain ⟨hring, -, hsame⟩ := ht.ring.switched (ht.ring.ne_nil_of_switch ht.null_process hrun) hrun
      exact ⟨_, .switch, ht.turn hring hsame ht.exited hrotate⟩
  | tick hrun =>
      obtain ⟨hring, -, hsame⟩ := ht.ring.ticked hrun
      exact ⟨_, .tick, ht.turn hring hsame ht.exited hrotate⟩
  | exit hexit =>
      obtain ⟨a, b, ys, hxs, hring, -, hsame, -⟩ := ht.ring.exited ht.null_process (.exit hexit)
      have ha : a ∈ h.created := ((ht.members a).mp (hxs ▸ List.mem_cons_self)).1
      have hnot : a ∉ b :: ys := (List.nodup_cons.mp (hxs ▸ ht.ring.nodup)).1
      refine ⟨_, .exit hxs, ht.turn hring hsame (fun c hc => ?_) fun c => ?_⟩
      · rcases List.mem_cons.mp hc with rfl | hc
        · exact ha
        · exact ht.exited c hc
      · have hc := ht.members c
        rw [hxs, List.mem_cons] at hc
        rw [List.mem_cons (a := c) (b := a), not_or]
        constructor
        · intro hmem
          obtain ⟨hcreated, hexited⟩ := hc.mp (.inr hmem)
          exact ⟨hcreated, fun heq => hnot (heq ▸ hmem), hexited⟩
        · rintro ⟨hcreated, hne, hexited⟩
          exact (hc.mpr ⟨hcreated, hexited⟩).resolve_left hne

end Tracks

/-! ## rounds -/

/-- The events that give the processor to the next process. -/
def SchedEvent.Turns : SchedEvent → Prop
  | .switch _ | .tick _ => True
  | .create .. | .exit => False

theorem RingAt.turn {k k' : Kernel} (h : RingAt k xs) (hne : xs ≠ []) (he : e.Turns)
    (hstep : SchedStep k e k') : RingAt k' (xs.rotate 1) := by
  obtain ⟨r, hreturns⟩ := hstep
  cases hreturns with
  | create => exact he.elim
  | switch hrun => exact (h.switched hne hrun).1
  | tick hrun => exact (h.ticked hrun).1
  | exit => exact he.elim

theorem RingAt.turns {k k' : Kernel} (h : RingAt k xs) (hne : xs ≠ [])
    (hes : ∀ e ∈ es, e.Turns) (hrun : Run SchedStep k es k') : RingAt k' (xs.rotate es.length) := by
  induction hrun generalizing xs with
  | nil => rwa [List.length_nil, List.rotate_zero]
  | @cons _ _ _ es _ hstep _ ih =>
      obtain ⟨he, hes⟩ := List.forall_mem_cons.mp hes
      have hrest := ih (h.turn hne he hstep) (mt List.rotate_eq_nil_iff.mp hne) hes
      rwa [List.rotate_rotate, Nat.add_comm] at hrest

/-- **One round**: as many turns as there are processes run each one exactly once. -/
theorem RingAt.round {k k' : Kernel} (h : RingAt k xs) (hes : ∀ e ∈ es, e.Turns)
    (hlength : es.length = xs.length) (hrun : Run SchedStep k es k') (ha : a ∈ xs) :
    ∃! i, i < es.length ∧ ∃ k₁, Run SchedStep k (es.take (i + 1)) k₁ ∧ k₁.currentProcess = a := by
  have hne : xs ≠ [] := List.ne_nil_of_mem ha
  have hafter : ∀ i, i < es.length →
      ((∃ k₁, Run SchedStep k (es.take (i + 1)) k₁ ∧ k₁.currentProcess = a) ↔
        (xs.rotate (i + 1)).head? = some a) := by
    intro i hi
    have hring : ∀ k₁, Run SchedStep k (es.take (i + 1)) k₁ → RingAt k₁ (xs.rotate (i + 1)) := by
      intro k₁ hpre
      have hturns := h.turns hne (fun e he => hes e (List.mem_of_mem_take he)) hpre
      rwa [List.length_take_of_le hi] at hturns
    obtain ⟨b, ys, hb⟩ := List.exists_cons_of_ne_nil (mt List.rotate_eq_nil_iff.mp hne :
      xs.rotate (i + 1) ≠ [])
    rw [← List.take_append_drop (i + 1) es] at hrun
    obtain ⟨k₁, hpre, -⟩ := hrun.of_append
    rw [hb, List.head?_cons, Option.some.injEq]
    constructor
    · rintro ⟨k₂, hpre₂, rfl⟩
      have hcurrent := (hring k₂ hpre₂).current
      rw [hb] at hcurrent
      exact hcurrent.symm
    · rintro rfl
      have hcurrent := (hring k₁ hpre).current
      rw [hb] at hcurrent
      exact ⟨k₁, hpre, hcurrent⟩
  obtain ⟨i, ⟨hi, hhead⟩, hunique⟩ := Ring.exists_unique_turn h.nodup ha
  rw [← hlength] at hi
  refine ⟨i, ⟨hi, (hafter i hi).mpr hhead⟩, fun j ⟨hj, hcur⟩ => ?_⟩
  exact hunique j ⟨hlength ▸ hj, (hafter j hj).mp hcur⟩

/-! ## numbers and entries -/

namespace Tracks

variable {k : Kernel} {h : History}

theorem pids_nodup (ht : Tracks k h) (hcount : h.created.length < 2 ^ 32) :
    (h.ring.map k.pidOf).Nodup := by
  have hcreated : (h.created.map k.pidOf).Nodup := by
    rw [ht.pids]
    refine List.Nodup.map_on (fun i hi j hj heq => ?_) (List.nodup_reverse.mpr List.nodup_range)
    rw [List.mem_reverse, List.mem_range] at hi hj
    have hu := Option.some.inj heq
    rw [u32_of_lt (by omega), u32_of_lt (by omega)] at hu
    exact Nat.succ.inj hu
  have hinj := List.inj_on_of_nodup_map hcreated
  exact List.Nodup.map_on (fun a ha b hb heq =>
    hinj ((ht.members a).mp ha).1 ((ht.members b).mp hb).1 heq) ht.ring.nodup

theorem exits (ht : Tracks k h) (hlength : 2 ≤ h.ring.length)
    (hp : k.processes k.currentProcess = some p) (hfree : procFreeSpace k p = .ok k₁)
    (hloads : k.Loads h.ring) : ∃ k' iret, SchedReturns k .exit k' (some iret) := by
  match hxs : h.ring with
  | [] | [_] =>
      rw [hxs] at hlength
      contradiction
  | a :: b :: xs =>
      have hring := hxs ▸ ht.ring
      obtain ⟨k', iret, hrun, -⟩ :=
        hring.exit ((show k.currentProcess = a from hring.current) ▸ hp) hfree (hxs ▸ hloads)
      exact ⟨k', iret, .exit ⟨xs.length + 2, fun fuel hfuel => hrun fuel hfuel⟩⟩

theorem entry (ht : Tracks k h) (hreturns : SchedReturns k e k' (some iret)) : Entered k' iret := by
  cases hreturns with
  | switch hrun => exact procSwitchProcess_entered hrun
  | tick hrun =>
      obtain ⟨-, hentered, -⟩ := ht.ring.ticked hrun
      exact hentered iret rfl
  | exit hexit =>
      obtain ⟨a, b, ys, -, -, hentered, -, -⟩ := ht.ring.exited ht.null_process (.exit hexit)
      exact hentered

end Tracks

/-- Two creations make a ring of two. -/
theorem ringAt_pair {k₁ k : Kernel} (s : Vm Pmm) (esp0 : Nat)
    (hrun₁ : procRunCode (bootKernel s esp0) code len = .ok k₁)
    (hsucc₁ : (bootKernel s esp0).vm.Succeeds k₁.vm)
    (hrun : procRunCode k₁ code' len' = .ok k) (hsucc : k₁.vm.Succeeds k.vm) :
    RingAt k [kernelHeapBaseVirt, k₁.heapPointer] ∧ k.pidOf 0 = none := by
  obtain ⟨-, ht₁⟩ := (tracks_boot s esp0).create (process_ne_zero hrun₁ hsucc₁) hrun₁
  obtain ⟨-, ht⟩ := ht₁.create (process_ne_zero hrun hsucc) hrun
  exact ⟨ht.ring, ht.null⟩

/-- The ring of two processes. -/
theorem twoRing : ∃ s₀ k a b ds, pagingInit bootVm 0x100000 = .ok s₀ ∧
    Run SchedStep (bootKernel s₀ 0) [.create (fun _ => 0x90) 128, .create (fun _ => 0x90) 128] k ∧
      RingAt k [a, b] ∧ k.pidOf 0 = none ∧ Spaces 0x100000 k ds := by
  obtain ⟨s₀, k₁, k, ds, hinit, -, hrun₁, hsucc₁, hrun, hsucc, hspaces⟩ := twoCreated
  obtain ⟨hring, hnull⟩ := ringAt_pair s₀ 0 hrun₁ hsucc₁ hrun hsucc
  exact ⟨s₀, k, _, _, ds, hinit, .cons ⟨none, .create (process_ne_zero hrun₁ hsucc₁) hrun₁⟩
    (.single ⟨none, .create (process_ne_zero hrun hsucc) hrun⟩), hring, hnull, hspaces⟩

end NimbleOS
