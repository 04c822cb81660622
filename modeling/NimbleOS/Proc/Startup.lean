import NimbleOS.Proc.Exit
import NimbleOS.Proc.Turns

/-!
# NimbleOS.Proc.Startup

What the kernel needs to come up, and to go on.  Where frames and heap suffice, `paging_init`
and every `proc_run_code` return, and no allocation is refused.  From then on the scheduler
takes no memory: every switch, tick and exit returns, but for the exit of the last process.
-/

namespace NimbleOS

/-! ## what a call takes -/

/-- The blocks that a call takes. -/
def SchedEvent.blocks : SchedEvent → Nat
  | .create _ len => 2 + numCodePages len + procKernelStackPages + (userSlots len).card
  | _ => 0

/-- The code ends below the stack. -/
def SchedEvent.Fits : SchedEvent → Prop
  | .create _ len => numCodePages len ≤ stackPage
  | _ => True

def SchedEvent.isExit : SchedEvent → Bool
  | .exit => true
  | _ => false

/-- The blocks that a list of calls takes. -/
def blocksOf (es : List SchedEvent) : Nat := (es.map SchedEvent.blocks).sum

/-- The number of exits. -/
def exits (es : List SchedEvent) : Nat := es.countP SchedEvent.isExit

theorem exits_cons (e : SchedEvent) (es : List SchedEvent) :
    exits (e :: es) = exits es + if e.isExit then 1 else 0 :=
  List.countP_cons

/-! ## how many processes there are -/

/-- **Step lemma**: a creation adds a process, and an exit leaves one. -/
theorem HistoryStep.length {h h' : History} (hstep : HistoryStep h e h') :
    h'.ring.length + (if e.isExit then 1 else 0) = h.ring.length + (if e.isCreate then 1 else 0) ∧
      (h.ring ≠ [] ∨ e.isCreate = true → h'.ring ≠ []) := by
  cases hstep with
  | create hnew =>
      cases hring : h.ring with
      | nil => exact ⟨rfl, fun _ => List.cons_ne_nil _ _⟩
      | cons x xs => exact ⟨rfl, fun _ => List.cons_ne_nil _ _⟩
  | switch =>
      exact ⟨List.length_rotate .., fun hne => mt List.rotate_eq_nil_iff.mp (hne.resolve_right Bool.false_ne_true)⟩
  | tick =>
      exact ⟨List.length_rotate .., fun hne => mt List.rotate_eq_nil_iff.mp (hne.resolve_right Bool.false_ne_true)⟩
  | exit hring =>
      rw [hring]
      exact ⟨rfl, fun _ => List.cons_ne_nil _ _⟩

/-- **Run lemma.** -/
theorem length_of_run {h h' : History} (hrun : Run HistoryStep h es h') :
    h'.ring.length + exits es = h.ring.length + creates es ∧ (h.ring ≠ [] → h'.ring ≠ []) := by
  induction hrun with
  | nil => exact ⟨rfl, id⟩
  | cons hstep _ ih =>
      obtain ⟨hlen, hne⟩ := hstep.length
      obtain ⟨hlen', hne'⟩ := ih
      rw [exits_cons, creates_cons]
      exact ⟨by omega, fun h0 => hne' (hne (.inl h0))⟩

/-- Nobody exits last: in a run that starts with a creation there are fewer exits than
creations. -/
theorem exits_lt_creates {k : Kernel}
    (hrun : Run SchedStep (bootKernel vm esp0) (.create code len :: es) k) :
    exits (.create code len :: es) < creates (.create code len :: es) := by
  obtain ⟨h, hhistory, -⟩ :=
    Run.simulate Tracks (fun _ _ e _ ht hstep => ht.step (e := e) hstep) hrun (tracks_boot vm esp0)
  cases hhistory with
  | cons hstep hrest =>
      obtain ⟨hlen, hne⟩ := hstep.length
      obtain ⟨hlen', hne'⟩ := length_of_run hrest
      have hpos := List.length_pos_iff.mpr (hne' (hne (.inr rfl)))
      have hempty : History.empty.ring.length = 0 := rfl
      rw [exits_cons, creates_cons]
      omega

/-! ## the scheduler needs no memory -/

/-- The directories refer to themselves and keep the kernel: every process can be switched to,
and an exit can read what it frees, whoever runs. -/
structure Kernel.Reads (k : Kernel) : Prop where
  current : SelfMapped k.vm.mem k.vm.cr3
  process : ∀ a p, k.processes a = some p → SelfMapped k.vm.mem p.directory
  keeps : ∀ a p, k.processes a = some p → k.vm.KeepsKernel p.directory

theorem Spaces.reads {k : Kernel} (h : Spaces kd k ds) : k.Reads where
  current := (h.wf k.vm.cr3 h.current).self
  process := fun a p hp => (h.wf p.directory (List.mem_cons_of_mem kd (h.directory a p hp))).self
  keeps := fun a p hp => h.keepsKernel (List.mem_cons_of_mem kd (h.directory a p hp))

theorem Kernel.Reads.loads {k : Kernel} (h : k.Reads) (xs : List Nat) : k.Loads xs :=
  fun a _ p hp => h.keeps a p hp

/-- What no call changes of a process: its directory. -/
theorem directory_of_fixedOf {k k' : Kernel} (h : k'.fixedOf a = k.fixedOf a)
    (hp : k'.processes a = some p) : ∃ q, k.processes a = some q ∧ p.directory = q.directory := by
  rw [Kernel.fixedOf, Kernel.fixedOf, hp, Option.map_some, eq_comm, Option.map_eq_some_iff] at h
  obtain ⟨q, hq, heq⟩ := h
  have hdir : q.fixed.directory = p.fixed.directory := congrArg Process.directory heq
  exact ⟨q, hq, hdir.symm⟩

/-- Memory and log stay as they are, and the directory is the same or that of a process. -/
structure Kernel.SameSpaces (k k' : Kernel) : Prop where
  mem : k'.vm.mem = k.vm.mem
  log : k'.vm.log = k.vm.log
  fixedOf : ∀ a, k'.fixedOf a = k.fixedOf a
  cr3 : k'.vm.cr3 = k.vm.cr3 ∨ ∃ a p, k.processes a = some p ∧ k'.vm.cr3 = p.directory

namespace Kernel.SameSpaces

variable {k k' k'' : Kernel}

/-- A process has the directory that it had. -/
theorem directory (h : k.SameSpaces k') (hp : k'.processes a = some p) :
    ∃ q, k.processes a = some q ∧ p.directory = q.directory :=
  directory_of_fixedOf (h.fixedOf a) hp

theorem trans (h : k.SameSpaces k') (h' : k'.SameSpaces k'') : k.SameSpaces k'' where
  mem := h'.mem.trans h.mem
  log := h'.log.trans h.log
  fixedOf := fun a => (h'.fixedOf a).trans (h.fixedOf a)
  cr3 := by
    rcases h'.cr3 with hsame | ⟨a, p, hp, hcr3⟩
    · rw [hsame]
      exact h.cr3
    · obtain ⟨q, hq, hdir⟩ := h.directory hp
      exact .inr ⟨a, q, hq, hcr3.trans hdir⟩

theorem reads (h : k.SameSpaces k') (hreads : k.Reads) : k'.Reads where
  current := by
    rw [h.mem]
    rcases h.cr3 with hsame | ⟨a, p, hp, hcr3⟩
    · rw [hsame]
      exact hreads.current
    · rw [hcr3]
      exact hreads.process a p hp
  process := fun a p hp => by
    obtain ⟨q, hq, hdir⟩ := h.directory hp
    rw [h.mem, hdir]
    exact hreads.process a q hq
  keeps := fun a p hp => by
    obtain ⟨q, hq, hdir⟩ := h.directory hp
    rw [hdir]
    rcases h.cr3 with hsame | ⟨b, r, hr, hcr3⟩
    · exact (hreads.keeps a q hq).congr h.mem hsame
    · exact ((hreads.keeps b r hr).inDir (hreads.keeps a q hq)).congr h.mem hcr3

end Kernel.SameSpaces

theorem procSwitchProcess_sameSpaces {k k' : Kernel} (h : procSwitchProcess k regs = .ok (k', iret)) :
    k.SameSpaces k' := by
  obtain ⟨k₁, old, p, hsave, -, hp, -, rfl, -⟩ := procSwitchProcess_of_ok h
  have hsame := procSaveRegisters_same hsave
  obtain ⟨q, hq, heq⟩ := hsame.of_some hp
  have hdir : p.unsaved.directory = q.unsaved.directory := congrArg Process.directory heq
  have hmem : k₁.vm.mem = k.vm.mem := congrArg Vm.mem hsame.vm
  have hlog : k₁.vm.log = k.vm.log := congrArg Vm.log hsame.vm
  exact ⟨hmem, hlog, hsame.fixedOf, .inr ⟨_, q, hq, hdir⟩⟩

theorem procSwitchProcess_pmm {k k' : Kernel} (h : procSwitchProcess k regs = .ok (k', iret)) :
    k'.vm.pmm = k.vm.pmm := by
  obtain ⟨k₁, old, p, hsave, -, -, -, rfl, -⟩ := procSwitchProcess_of_ok h
  have hpmm : k₁.vm.pmm = k.vm.pmm := congrArg Vm.pmm (procSaveRegisters_same hsave).vm
  exact hpmm

theorem procUnlinkCurrent_sameSpaces {k k' : Kernel} (h : procUnlinkCurrent k fuel = .ok k') :
    k.SameSpaces k' := by
  rw [procUnlinkCurrent] at h
  cases hp : k.processes k.currentProcess with
  | none =>
      rw [hp] at h
      cases h
  | some p =>
      rw [hp] at h
      obtain ⟨k₁, hfree, h⟩ := bind_eq_ok.mp h
      obtain ⟨code, stack, pd, rfl⟩ := procFreeSpace_of_ok hfree
      split at h
      · cases h
      · obtain ⟨l, -, h⟩ := bind_eq_ok.mp h
        obtain rfl := Except.ok.inj h
        exact ⟨rfl, rfl, fun a => (Kernel.sameButNext_setNext _ l p.next).fixedOf a, .inl rfl⟩

/-- Only a creation writes to memory, or asks for any. -/
theorem schedReturns_sameSpaces {k k' : Kernel} (h : SchedReturns k e k' r)
    (he : e.isCreate = false) : k.SameSpaces k' := by
  cases h with
  | create => cases he
  | switch hrun => exact procSwitchProcess_sameSpaces hrun
  | tick hrun =>
      rcases procTimerCallback_of_ok hrun with ⟨-, rfl, -⟩ | ⟨iret, -, -, hswitch⟩
      · exact ⟨rfl, rfl, fun _ => rfl, .inl rfl⟩
      · exact procSwitchProcess_sameSpaces hswitch
  | exit hexit =>
      obtain ⟨n, hexit⟩ := hexit
      have hrun := hexit n (Nat.le_refl n)
      rw [procExitCurrentProcess_eq] at hrun
      obtain ⟨k₁, hunlink, hrun⟩ := bind_eq_ok.mp hrun
      obtain ⟨pids, -, hswitch⟩ := bind_eq_ok.mp hrun
      exact (procUnlinkCurrent_sameSpaces hunlink).trans (procSwitchProcess_sameSpaces hswitch)

/-- A call that creates nothing returns, if an exit leaves somebody. -/
theorem Kernel.Reads.returns {k : Kernel} (hreads : k.Reads) (ht : Tracks k h) (hne : h.ring ≠ [])
    (he : e.isCreate = false) (hexit : e.isExit = true → 2 ≤ h.ring.length) :
    ∃ k' r, SchedReturns k e k' r := by
  cases e with
  | create => cases he
  | switch regs =>
      obtain ⟨k', iret, hrun, -⟩ := ht.ring.switch hne (hreads.loads _) regs
      exact ⟨k', some iret, .switch hrun⟩
  | tick regs =>
      obtain ⟨k', r, hrun, -⟩ := ht.ring.tick (hreads.loads _) regs
      exact ⟨k', r, .tick hrun⟩
  | exit =>
      obtain ⟨a, xs, hxs⟩ := List.exists_cons_of_ne_nil hne
      obtain ⟨p, -, hcurrent, hp, -⟩ := (hxs ▸ ht.ring).head
      obtain ⟨k₁, hfree⟩ := procFreeSpace_returns hreads.current p
      obtain ⟨k', iret, hrun⟩ := ht.exits (hexit rfl) (hcurrent ▸ hp) hfree (hreads.loads _)
      exact ⟨k', some iret, hrun⟩

/-- **The scheduler goes on**, as long as an exit leaves somebody. -/
theorem Kernel.Reads.serves {k : Kernel} (hreads : k.Reads) (ht : Tracks k h) (hes : creates es = 0)
    (hexits : exits es < h.ring.length) :
    ∃ k' h', Run SchedStep k es k' ∧ Run HistoryStep h es h' ∧ Tracks k' h' ∧ k'.vm.log = k.vm.log := by
  induction es generalizing k h with
  | nil => exact ⟨k, h, .nil k, .nil h, ht, rfl⟩
  | cons e es ih =>
      rw [creates_cons] at hes
      rw [exits_cons] at hexits
      have he : e.isCreate = false := by
        by_contra hcreate
        rw [if_pos (Bool.eq_true_of_not_eq_false hcreate)] at hes
        omega
      have hne : h.ring ≠ [] := List.length_pos_iff.mp (by omega)
      obtain ⟨k₁, r, hreturns⟩ := hreads.returns ht hne he fun hexit => by
        rw [if_pos hexit] at hexits
        omega
      have hstep : SchedStep k e k₁ := ⟨r, hreturns⟩
      obtain ⟨h₁, hhistory, ht₁⟩ := ht.step hstep
      have hsame := schedReturns_sameSpaces hreturns he
      obtain ⟨hlen, -⟩ := hhistory.length
      rw [he, if_neg Bool.false_ne_true] at hlen
      obtain ⟨k', h', hrun, hhistory', ht', hlog⟩ :=
        ih (hsame.reads hreads) ht₁ (by omega) (by omega)
      exact ⟨k', h', .cons hstep hrun, .cons hhistory hhistory', ht', hlog.trans hsame.log⟩

/-! ## creations -/

/-- The kernel while processes are created: no more than `n` of the `m` blocks are taken. -/
structure Growing (kd m n : Nat) (k : Kernel) (h : History) : Prop where
  spaces : ∃ ds, Spaces kd k ds
  tracks : Tracks k h
  room : Room k.vm.pmm n
  blocks : k.vm.pmm.maxBlocks = m
  heap : StacksInv k h.created.length

namespace Growing

variable {k k' : Kernel} {h h' : History}

/-- **A creation** returns, where there is room for it. -/
theorem create (hg : Growing kd m n k h) (code : Nat → BitVec 8) (hfits : numCodePages len ≤ stackPage)
    (hle : n + SchedEvent.blocks (.create code len) ≤ m) (hheap : h.created.length < maxStacks) :
    ∃ k' h', SchedStep k (.create code len) k' ∧ HistoryStep h (.create code len) h' ∧
      k.vm.Succeeds k'.vm ∧ Growing kd m (n + SchedEvent.blocks (.create code len)) k' h' := by
  obtain ⟨ds, hspaces⟩ := hg.spaces
  have hheap' : k.heapPointer + (sizeofProcess + pageSize) < kernelHeapEndVirt := by
    have hlt := (processAt_lt_iff (h.created.length + 1)).mpr hheap
    rwa [processAt_succ, ← hg.heap.heap (Nat.le_of_lt hheap)] at hlt
  obtain ⟨k', hrun, hsucc, -, hroom, hmax, -⟩ := procRunCode_of_room (hspaces.ready hspaces.process)
    code len hfits hg.tracks.heap.1 hheap' hg.room (hg.blocks ▸ hle)
  obtain ⟨d, hspaces'⟩ := hspaces.create hrun hsucc
  have hprocess := process_ne_zero hrun hsucc
  obtain ⟨hnew, ht⟩ := hg.tracks.create hprocess hrun
  exact ⟨k', _, ⟨none, .create hprocess hrun⟩, .create hnew, hsucc, ⟨d :: ds, hspaces'⟩, ht, hroom,
    hmax.trans hg.blocks, hg.heap.create hprocess hrun⟩

/-- A switch takes nothing. -/
theorem switched (hg : Growing kd m n k h) (hswitch : procSwitchProcess k regs = .ok (k', iret))
    (ht : Tracks k' h') (hcreated : h'.created = h.created) : Growing kd m n k' h' := by
  obtain ⟨ds, hspaces⟩ := hg.spaces
  have hpmm := procSwitchProcess_pmm hswitch
  exact
    { spaces := ⟨ds, hspaces.schedule hswitch⟩
      tracks := ht
      room := by rw [hpmm]; exact hg.room
      blocks := by rw [hpmm]; exact hg.blocks
      heap := by
        rw [hcreated]
        exact hg.heap.same (procSwitchProcess_sameStacks hswitch) }

/-- **Step lemma.** -/
theorem step (hg : Growing kd m n k h) (hfits : e.Fits) (hexit : e.isExit = false)
    (hne : h.ring ≠ [] ∨ e.isCreate = true) (hle : n + e.blocks ≤ m)
    (hheap : h.created.length + (if e.isCreate then 1 else 0) ≤ maxStacks) :
    ∃ k' h', SchedStep k e k' ∧ HistoryStep h e h' ∧ k.vm.Succeeds k'.vm ∧
      Growing kd m (n + e.blocks) k' h' := by
  cases e with
  | create code len => exact hg.create code hfits hle hheap
  | switch regs =>
      obtain ⟨ds, hspaces⟩ := hg.spaces
      obtain ⟨k', iret, hrun, hring, -, hsame⟩ :=
        hg.tracks.ring.switch (hne.resolve_right Bool.false_ne_true) (hspaces.loads _) regs
      have ht : Tracks k' { h with ring := h.ring.rotate 1 } :=
        hg.tracks.turn hring hsame hg.tracks.exited fun a => List.mem_rotate.trans (hg.tracks.members a)
      exact ⟨k', _, ⟨_, .switch hrun⟩, .switch,
        ⟨[], (procSwitchProcess_sameSpaces hrun).log, by simp⟩, hg.switched hrun ht rfl⟩
  | tick regs =>
      obtain ⟨ds, hspaces⟩ := hg.spaces
      obtain ⟨k', r, hrun, hring, -, hsame⟩ := hg.tracks.ring.tick (hspaces.loads _) regs
      have ht : Tracks k' { h with ring := h.ring.rotate 1 } :=
        hg.tracks.turn hring hsame hg.tracks.exited fun a => List.mem_rotate.trans (hg.tracks.members a)
      rcases procTimerCallback_of_ok hrun with ⟨-, rfl, -⟩ | ⟨iret, -, -, hswitch⟩
      · exact ⟨k', _, ⟨_, .tick hrun⟩, .tick, ⟨[], rfl, by simp⟩, { hg with tracks := ht }⟩
      · exact ⟨k', _, ⟨_, .tick hrun⟩, .tick,
          ⟨[], (procSwitchProcess_sameSpaces hswitch).log, by simp⟩, hg.switched hswitch ht rfl⟩
  | exit => cases hexit

/-- The number of creations. -/
theorem created_length (hstep : HistoryStep h e h') :
    h'.created.length = h.created.length + (if e.isCreate then 1 else 0) := by
  cases hstep <;> rfl

/-- **Run lemma.** -/
theorem run (hg : Growing kd m n k h) (hfits : ∀ e ∈ es, e.Fits) (hexits : exits es = 0)
    (hne : h.ring ≠ []) (hle : n + blocksOf es ≤ m) (hheap : h.created.length + creates es ≤ maxStacks) :
    ∃ k' h', Run SchedStep k es k' ∧ Run HistoryStep h es h' ∧ k.vm.Succeeds k'.vm ∧
      Growing kd m (n + blocksOf es) k' h' := by
  induction es generalizing k h n with
  | nil => exact ⟨k, h, .nil k, .nil h, ⟨[], rfl, by simp⟩, hg⟩
  | cons e es ih =>
      obtain ⟨hfit, hfits⟩ := List.forall_mem_cons.mp hfits
      rw [exits_cons] at hexits
      rw [creates_cons] at hheap
      have hblocks : blocksOf (e :: es) = e.blocks + blocksOf es := List.sum_cons
      have hexit : e.isExit = false := by
        by_contra hexit
        rw [if_pos (Bool.eq_true_of_not_eq_false hexit)] at hexits
        omega
      obtain ⟨k₁, h₁, hstep, hhistory, hsucc, hg₁⟩ :=
        hg.step hfit hexit (.inl hne) (by omega) (by omega)
      have hcount := created_length hhistory
      obtain ⟨k', h', hrun, hhistory', hsucc', hg'⟩ := ih hg₁ hfits (by omega)
        (hhistory.length.2 (.inl hne)) (by omega) (by omega)
      refine ⟨k', h', .cons hstep hrun, .cons hhistory hhistory', hsucc.trans hsucc', ?_⟩
      rwa [hblocks, ← Nat.add_assoc]

/-- **The creations**, the first of which makes the ring. -/
theorem comes_up (hg : Growing kd m n k .empty) (hes : es = .create code len :: es₁)
    (hfits : ∀ e ∈ es, e.Fits) (hexits : exits es = 0) (hle : n + blocksOf es ≤ m)
    (hheap : creates es ≤ maxStacks) :
    ∃ k' h', Run SchedStep k es k' ∧ Run HistoryStep .empty es h' ∧ k.vm.Succeeds k'.vm ∧
      Growing kd m (n + blocksOf es) k' h' ∧ h'.ring.length = creates es := by
  have hblocks : blocksOf es = SchedEvent.blocks (.create code len) + blocksOf es₁ := by
    rw [hes]
    exact List.sum_cons
  have hcount : creates es = creates es₁ + 1 := by rw [hes, creates_cons]; rfl
  have hempty : History.empty.created.length = 0 := rfl
  obtain ⟨hfit, hfits₁⟩ := List.forall_mem_cons.mp (hes ▸ hfits)
  obtain ⟨k₁, h₁, hstep, hhistory, hsucc₁, hg₁⟩ := hg.create code hfit (by omega) (by omega)
  have hcreated := created_length hhistory
  have hcreate : SchedEvent.isCreate (.create code len) = true := rfl
  have hexits₁ : exits es₁ = 0 := by
    rw [hes, exits_cons] at hexits
    exact (Nat.add_eq_zero_iff.mp hexits).1
  rw [hcreate, if_pos rfl] at hcreated
  obtain ⟨k₂, h₂, hrun₂, hhistory₂, hsucc₂, hg₂⟩ := hg₁.run hfits₁ hexits₁
    (hhistory.length.2 (.inr rfl)) (by omega) (by omega)
  have hlength := (length_of_run (Run.cons hhistory hhistory₂)).1
  rw [← hes, hexits, show History.empty.ring.length = 0 from rfl] at hlength
  refine ⟨k₂, h₂, ?_, ?_, hsucc₁.trans hsucc₂, ?_, by omega⟩
  · rw [hes]
    exact .cons hstep hrun₂
  · rw [hes]
    exact .cons hhistory hhistory₂
  · rw [hblocks, ← Nat.add_assoc]
    exact hg₂

end Growing

/-! ## from boot on -/

theorem growing_boot {s : Vm Pmm} (h : Booted s kd) (hroom : Room s.pmm n) (esp0 : Nat) :
    Growing kd s.pmm.maxBlocks n (bootKernel s esp0) .empty where
  spaces := ⟨[], h.spaces esp0⟩
  tracks := tracks_boot s esp0
  room := hroom
  blocks := rfl
  heap := stacksInv_boot s esp0

end NimbleOS
