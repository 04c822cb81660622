import NimbleOS.Proc.Answers
import NimbleOS.Proc.Isolated
import NimbleOS.Proc.Replay

/-!
# NimbleOS.Proc.Live

What the ring needs of the physical memory manager.  An exit gives back the frames of the loaded
directory and the blocks behind them, so a directory that is still switched to can be free, and
so can what is behind it, a process or the kernel itself.  `Kernel.Spares` says that a creation is
handed nothing that is in use.  Where every creation is so, the ring is the cyclic list of its
history (`ring_refines`).
-/

namespace NimbleOS

open Pmm

/-! ## directories and what is in use -/

/-- The invariant of the directories, with another manager that has their tables in use. -/
theorem Shared.within {k : Kernel} (h : Shared kd ds k) (hq : q.Sane)
    (htaken : ∀ d ∈ kd :: ds, ∀ f, IsTableOf k.vm.mem d f → q.Taken f) :
    Shared kd ds (k.withPmm q) where
  sane := hq
  current := h.current
  wf := fun d hd =>
    { self := (h.wf d hd).self
      ne_dir := (h.wf d hd).ne_dir
      inj := (h.wf d hd).inj
      dir_taken := htaken d hd d (.inl rfl)
      table_taken := fun j hj hp => htaken d hd _ (.inr ⟨j, slot_lt hj, hp, rfl⟩) }
  high := h.high
  window := h.window
  closed := h.closed

/-- Fewer directories, one of which is loaded. -/
theorem Shared.visit {k k' : Kernel} (h : Shared kd ds k) (hmem : k'.vm.mem = k.vm.mem)
    (hpmm : k'.vm.pmm = k.vm.pmm) (hsub : ds' ⊆ ds) (hcr3 : k'.vm.cr3 ∈ kd :: ds') :
    Shared kd ds' k' := by
  have hin : ∀ d ∈ kd :: ds', d ∈ kd :: ds := fun d hd => List.cons_subset_cons kd hsub hd
  exact
    { sane := by
        rw [hpmm]
        exact h.sane
      current := hcr3
      wf := fun d hd => (h.wf d (hin d hd)).congr rfl
        (fun j _ => by rw [Vm.pde_inDir, Vm.pde_inDir, hmem]) fun f hf => by
          rw [Vm.inDir_pmm, hpmm]
          exact hf
      high := fun d hd j hlo hhi => by
        rw [hmem]
        exact h.high d (hin d hd) j hlo hhi
      window := by
        rw [hmem]
        refine h.window.imp_left fun hnil => ?_
        rw [hnil] at hsub
        exact List.subset_nil.mp hsub
      closed := by
        rw [hmem]
        exact h.closed }

/-! ## the condition -/

/-- The frame is in use: the kernel had it from the start (its image, its heap and its tables are
there), or has it for a table of the window, or it belongs to a process in the ring. -/
def Kernel.InUse (start : Pmm) (kd : Nat) (k : Kernel) (f : Nat) : Prop :=
  start.Taken f ∨ IsTableOf k.vm.mem kd f ∨
    ∃ a p, k.InRing a ∧ k.processes a = some p ∧ BelongsTo k.vm.mem p.directory f

/-- Every allocation of a creation succeeds, and none takes a frame that is in use. -/
structure Kernel.Spares (start : Pmm) (kd : Nat) (k : Kernel) (len : Nat) (p' : Pmm) : Prop where
  allocs : AllocsSucceed k len p'
  frames : ∀ f, k.InUse start kd f → p'.Taken f → k.vm.pmm.Taken f

/-- A creation spares what is in use, and its code ends below the stack. -/
def SchedEvent.Spares (start : Pmm) (kd : Nat) (k : Kernel) : SchedEvent → Prop
  | .create _ len => numCodePages len ≤ stackPage ∧ ∃ p', k.Spares start kd len p'
  | _ => True

/-! ## the invariant -/

/-- The directories of these processes. -/
def Kernel.directories (k : Kernel) (xs : List Nat) : List Nat :=
  xs.filterMap fun a => (k.processes a).map Process.directory

theorem Kernel.mem_directories {k : Kernel} :
    d ∈ k.directories xs ↔ ∃ a ∈ xs, ∃ p, k.processes a = some p ∧ p.directory = d := by
  simp only [directories, List.mem_filterMap, Option.map_eq_some_iff]

/-- The ring is that of the history, and the directories of its processes agree, with each other
and with the kernel's.  Their frames need not be in use: some manager has them so. -/
structure Live (kd : Nat) (k : Kernel) (h : History) : Prop where
  tracks : Tracks k h
  shared : ∃ q, Shared kd (k.directories h.ring) (k.withPmm q)
  blocks : k.vm.pmm.maxBlocks ≤ 2 ^ 20

theorem live_boot {s : Vm Pmm} (h : Booted s kd) (esp0 : Nat) :
    Live kd (bootKernel s esp0) .empty where
  tracks := tracks_boot s esp0
  shared := ⟨s.pmm, (h.spaces esp0).toShared⟩
  blocks := h.sane.max_le

/-- What a call changes of the ring, where it creates nothing. -/
theorem HistoryStep.ring_sub {h h' : History} (hstep : HistoryStep h e h') (he : e.isCreate = false) :
    h'.ring ⊆ h.ring ∧ (∀ a, a ∈ h.ring → e.isExit = false → a ∈ h'.ring) := by
  cases hstep with
  | create => cases he
  | switch => exact ⟨fun a ha => List.mem_rotate.mp ha, fun a ha _ => List.mem_rotate.mpr ha⟩
  | tick => exact ⟨fun a ha => List.mem_rotate.mp ha, fun a ha _ => List.mem_rotate.mpr ha⟩
  | exit hring =>
      rw [hring]
      exact ⟨List.subset_cons_self _ _, fun _ _ hexit => nomatch hexit⟩

/-- Frames are given back by an exit only, and the number of blocks never changes. -/
theorem schedReturns_maxBlocks {k k' : Kernel} (h : SchedReturns k e k' r)
    (he : e.isCreate = false) : k'.vm.pmm.maxBlocks = k.vm.pmm.maxBlocks := by
  cases h with
  | create => cases he
  | switch hrun => rw [procSwitchProcess_pmm hrun]
  | tick hrun =>
      rcases procTimerCallback_of_ok hrun with ⟨-, rfl, -⟩ | ⟨iret, -, -, hswitch⟩
      · rfl
      · rw [procSwitchProcess_pmm hswitch]
  | exit hexit =>
      obtain ⟨n, hexit⟩ := hexit
      obtain ⟨p, k₁, -, hfree, hpmm, -⟩ := procExitCurrentProcess_of_ok (hexit n (Nat.le_refl n))
      obtain ⟨code, stack, pd, rfl⟩ := procFreeSpace_of_ok hfree
      rw [hpmm]
      simp only [pmmFreePage, pmmFreePages, maxBlocks_mmapUnset, maxBlocks_mmapUnsetBlocks]

namespace Live

variable {k k' : Kernel} {h h' : History}

/-- Every process of the ring can be switched to. -/
theorem loads (hl : Live kd k h) : k.Loads h.ring := fun a ha p hp => by
  obtain ⟨q, hshared⟩ := hl.shared
  have hmem : p.directory ∈ k.directories h.ring := Kernel.mem_directories.mpr ⟨a, ha, p, hp, rfl⟩
  exact (hshared.keepsKernel (List.mem_cons_of_mem kd hmem)).congr rfl rfl

theorem self (hl : Live kd k h) : SelfMapped k.vm.mem k.vm.cr3 := by
  obtain ⟨q, hshared⟩ := hl.shared
  exact (hshared.wf k.vm.cr3 hshared.current).self

theorem current (hl : Live kd k h) (hne : k.currentProcess ≠ 0) :
    ∃ p, k.processes k.currentProcess = some p := by
  obtain ⟨a, xs, hxs⟩ := List.exists_cons_of_ne_nil (mt hl.tracks.ring.nil_iff.mpr hne)
  obtain ⟨p, -, hcurrent, hp, -⟩ := (hxs ▸ hl.tracks.ring).head
  exact ⟨p, hcurrent ▸ hp⟩

/-- The tables of the directories are in use. -/
theorem inUse (hl : Live kd k h) (hd : d ∈ kd :: k.directories h.ring)
    (hf : IsTableOf k.vm.mem d f) (start : Pmm) : k.InUse start kd f := by
  obtain ⟨q, hshared⟩ := hl.shared
  rcases List.mem_cons.mp hd with rfl | hd'
  · exact .inr (.inl hf)
  obtain ⟨a, ha, p, hp, rfl⟩ := Kernel.mem_directories.mp hd'
  have hin := (hl.tracks.ring.inRing_iff hl.tracks.null_process).mpr ha
  have hbelongs : BelongsTo k.vm.mem p.directory f → k.InUse start kd f := fun h =>
    .inr (.inr ⟨a, p, hin, hp, h⟩)
  rcases hf with rfl | ⟨j, hj, hpres, rfl⟩
  · exact hbelongs .directory
  · by_cases hlow : j < kernelPageDirIndex
    · exact hbelongs (.table hlow hpres)
    · by_cases hlast : j = 1023
      · have hself : pageFrame (entry k.vm.mem p.directory 1023) = p.directory :=
          (hshared.wf _ hd).self.self
        rw [hlast, hself] at hbelongs ⊢
        exact hbelongs .directory
      · -- a table of the kernel
        have hsame : entry k.vm.mem p.directory j = entry k.vm.mem kd j :=
          hshared.high _ hd j (Nat.le_of_not_lt hlow) (by unfold pageEntries at hj; omega)
        rw [hsame] at hpres ⊢
        exact .inr (.inl (.inr ⟨j, hj, hpres, rfl⟩))

/-- The process that is entered is in the ring, with the directory that is loaded. -/
theorem directory_of_entered (ht : Tracks k h) (hentered : Entered k iret) :
    k.vm.cr3 ∈ k.directories h.ring := by
  obtain ⟨p, hp, hcr3, -⟩ := hentered
  have hin := (ht.ring.inRing_iff ht.null_process).mp (.current hp)
  exact Kernel.mem_directories.mpr ⟨_, hin, p, hp, hcr3.symm⟩

/-- **A turn** keeps the directories. -/
theorem turn (hl : Live kd k h) (hreturns : SchedReturns k e k' r) (he : e.isCreate = false)
    (hhistory : HistoryStep h e h') (ht : Tracks k' h') : Live kd k' h' := by
  obtain ⟨q, hshared⟩ := hl.shared
  have hsame := schedReturns_sameSpaces hreturns he
  obtain ⟨hsub, hkept⟩ := hhistory.ring_sub he
  refine ⟨ht, ⟨q, hshared.visit hsame.mem rfl (fun d hd => ?_) ?_⟩, ?_⟩
  · obtain ⟨a, ha, p, hp, rfl⟩ := Kernel.mem_directories.mp hd
    obtain ⟨p', hp', hdir⟩ := hsame.directory hp
    exact Kernel.mem_directories.mpr ⟨a, hsub ha, p', hp', hdir.symm⟩
  · cases r with
    | some iret => exact List.mem_cons_of_mem kd (directory_of_entered ht (hl.tracks.entry hreturns))
    | none =>
        -- a tick without a switch
        cases hreturns with
        | create => cases he
        | tick hrun =>
            obtain ⟨-, rfl, -⟩ | ⟨iret, hr, -⟩ := procTimerCallback_of_ok hrun
            · refine List.mem_cons.mpr ((List.mem_cons.mp hshared.current).imp_right fun hd => ?_)
              obtain ⟨a, ha, p, hp, hdir⟩ := Kernel.mem_directories.mp hd
              exact Kernel.mem_directories.mpr ⟨a, hkept a ha rfl, p, hp, hdir⟩
            · cases hr
  · rw [schedReturns_maxBlocks hreturns he]
    exact hl.blocks

/-- **A creation** that is handed nothing in use returns, and keeps the directories. -/
theorem create (hl : Live kd k h) (code : Nat → BitVec 8) (hend : numCodePages len ≤ stackPage)
    (hspares : k.Spares start kd len p') :
    ∃ k' h', SchedReturns k (.create code len) k' none ∧ HistoryStep h (.create code len) h' ∧
      Live kd k' h' := by
  obtain ⟨q₀, hshared⟩ := hl.shared
  have halloc := hspares.allocs
  have hs : k.vm.pmm.Sane := by
    cases halloc.pmm with
    | cons hpage _ => exact ⟨hl.blocks, zero_used_of_granted hpage⟩
  -- the same call, with the frames in use marked
  obtain ⟨q, hmarks⟩ := exists_marks (fun b => ∃ f, k.InUse start kd f ∧ f / pageSize = b) k.vm.pmm
  obtain ⟨xs, hxs, hne, hanswers⟩ := granted_iff_answers.mp halloc.pmm
  obtain ⟨q', hanswers', hmarks'⟩ := hmarks.answers hs hanswers hne (by
    rintro _ ⟨f, hf, rfl⟩ hused
    exact hspares.frames f hf hused)
  have hshared' : Shared kd (k.directories h.ring) (k.withPmm q) :=
    hshared.within (hmarks.sane hs) fun d hd f hf =>
      (hmarks.used _).mpr (.inl ⟨f, hl.inUse hd hf start, rfl⟩)
  have hprocess : (kmalloc (k.withPmm q) sizeofProcess).1 ≠ 0 := by
    rw [kmalloc_withPmm]
    exact halloc.process
  obtain ⟨k₁, k', o, l, hrun, hpmm, hbuilt, hlog, hadds, hinsert, hnext⟩ :=
    procRunCode_returns (hshared'.ready hl.current) hend code hprocess
      (granted_iff_answers.mpr ⟨xs, hxs, hne, hanswers'⟩)
  -- the manager gives the same answers
  have hrequests := hbuilt.requests
  obtain ⟨hsame, -⟩ := answers_of_draws hrequests hbuilt.draws.run hanswers' hxs
  have hdraws := (draws_iff_answers hrequests).mpr (hsame ▸ hanswers)
  obtain ⟨new, hnew, -, hagain⟩ := procRunCode_replays hprocess hrun
  have hdrawn : k'.vm.log = o.allocs len ++ l := hbuilt.draws.log
  have hnew' : k'.vm.log = new ++ k.vm.log := hnew
  rw [hdrawn, hlog, ← List.append_assoc] at hnew'
  obtain rfl := List.append_cancel_right hnew'
  obtain ⟨-, hrun'⟩ := hagain k.vm.pmm p' (by
    rw [List.reverse_append]
    exact .cons rfl (.cons rfl hdraws))
  have hrun' : procRunCode k code len = .ok (k'.withPmm p') := hrun'
  obtain ⟨hnot, ht⟩ := hl.tracks.create halloc.process hrun'
  refine ⟨_, _, .create halloc.process hrun', .create hnot, ht, ⟨q', ?_⟩, ?_⟩
  · rw [show (kmalloc (k.withPmm q) sizeofProcess).1 = k.heapPointer from
      (kmalloc_of_ne_zero _ hprocess).2.1] at hadds
    have hcreated : Shared kd (o.directory :: k.directories h.ring) k' := hshared'.create hbuilt
    refine hcreated.visit rfl hpmm.symm (fun d hd => ?_) ?_
    · obtain ⟨a, ha, p, hp, rfl⟩ := Kernel.mem_directories.mp hd
      rcases hadds.directory hnext hp with ⟨-, hdir⟩ | ⟨hne, r, hr, hdir⟩
      · exact List.mem_cons.mpr (.inl hdir)
      · have hold := (Ring.mem_insert.mp ha).resolve_left hne
        exact List.mem_cons_of_mem _ (Kernel.mem_directories.mpr ⟨a, hold, r, hr, hdir.symm⟩)
    · have hcr3 : k'.vm.cr3 = k.vm.cr3 := hbuilt.cr3
      refine hcr3 ▸ List.mem_cons.mpr ((List.mem_cons.mp hshared.current).imp_right fun hd => ?_)
      obtain ⟨a, ha, r, hr, hdir⟩ := Kernel.mem_directories.mp hd
      have hne : a ≠ k.heapPointer := fun heq => hnot (heq ▸ ((hl.tracks.members a).mp ha).1)
      obtain ⟨p, hp, hsame⟩ := hadds.kept hnext hr hne
      exact Kernel.mem_directories.mpr
        ⟨a, Ring.mem_insert.mpr (.inr ha), p, hp, hsame.trans hdir⟩
  · exact (granted_sane hs halloc.pmm).2.1.trans_le hl.blocks

/-- **Step lemma.** -/
theorem step (hl : Live kd k h) (hspares : e.Spares start kd k) (hstep : SchedStep k e k') :
    ∃ h', HistoryStep h e h' ∧ Live kd k' h' := by
  obtain ⟨r, hreturns⟩ := hstep
  cases hcreate : e.isCreate with
  | false =>
      obtain ⟨h', hhistory, ht⟩ := hl.tracks.step ⟨r, hreturns⟩
      exact ⟨h', hhistory, hl.turn hreturns hcreate hhistory ht⟩
  | true =>
      cases hreturns with
      | create hprocess hrun =>
          obtain ⟨hend, p', hspares⟩ := hspares
          obtain ⟨k'', h', hcreated, hhistory, hl'⟩ := hl.create _ hend hspares
          cases hcreated with
          | create _ hrun' =>
              obtain rfl := Except.ok.inj (hrun.symm.trans hrun')
              exact ⟨h', hhistory, hl'⟩
      | switch => cases hcreate
      | tick => cases hcreate
      | exit => cases hcreate

/-- **Run lemma.** -/
theorem run (hl : Live kd k h) (hrun : Run SchedStep k es k')
    (hspares : Run.Always SchedStep (fun k e => e.Spares start kd k) k es) :
    ∃ h', Run HistoryStep h es h' ∧ Live kd k' h' :=
  hrun.simulate_always (Live kd) (fun _ _ _ _ hl hspares hstep => hl.step hspares hstep) hspares hl

end Live

/-! ## the ring refines the cyclic list -/

/-- The kernel's ring, after the history `h`: its links are the abstract ring, which holds the
created processes that have not exited, each once and with a number of its own; the loops over
it end; every call returns, a creation if it spares what is in use; as many turns as there are
processes run each of them once; and every entry to user mode is into the current process, with
its directory and kernel stack loaded. -/
structure RingRefines (start : Pmm) (kd : Nat) (k : Kernel) (h : History) : Prop where
  ring : RingAt k h.ring
  members : ∀ a, a ∈ h.ring ↔ a ∈ h.created ∧ a ∉ h.exited
  pids : h.created.length < 2 ^ 32 → (h.ring.map k.pidOf).Nodup
  prints : h.ring ≠ [] → ∃ n pids, (∀ fuel, n ≤ fuel → procPrintProcesses k fuel = .ok pids) ∧
    h.ring.map k.pidOf = pids.map some
  creates : ∀ code len, SchedEvent.Spares start kd k (.create code len) →
    ∃ k', SchedReturns k (.create code len) k' none
  switches : h.ring ≠ [] → ∀ regs, ∃ k' iret, SchedReturns k (.switch regs) k' (some iret)
  ticks : ∀ regs, ∃ k' r, SchedReturns k (.tick regs) k' r
  exits : 2 ≤ h.ring.length → ∃ k' iret, SchedReturns k .exit k' (some iret)
  round : ∀ es k', (∀ e ∈ es, e.Turns) → es.length = h.ring.length → Run SchedStep k es k' →
    ∀ a ∈ h.ring, ∃! i, i < es.length ∧
      ∃ k₁, Run SchedStep k (es.take (i + 1)) k₁ ∧ k₁.currentProcess = a
  entry : ∀ e k' iret, SchedReturns k e k' (some iret) → Entered k' iret

theorem Live.refines {k : Kernel} (hl : Live kd k h) (start : Pmm) : RingRefines start kd k h where
  ring := hl.tracks.ring
  members := hl.tracks.members
  pids := hl.tracks.pids_nodup
  prints := fun hne => by
    obtain ⟨a, xs, hxs⟩ := List.exists_cons_of_ne_nil hne
    obtain ⟨pids, hprint, hpids⟩ := (hxs ▸ hl.tracks.ring).print
    exact ⟨xs.length + 2, pids, fun fuel hfuel => hprint fuel hfuel, hxs ▸ hpids⟩
  creates := fun code len ⟨hend, p', hspares⟩ => by
    obtain ⟨k', -, hreturns, -⟩ := hl.create code hend hspares
    exact ⟨k', hreturns⟩
  switches := fun hne regs => by
    obtain ⟨k', iret, hrun, -⟩ := hl.tracks.ring.switch hne hl.loads regs
    exact ⟨k', iret, .switch hrun⟩
  ticks := fun regs => by
    obtain ⟨k', r, hrun, -⟩ := hl.tracks.ring.tick hl.loads regs
    exact ⟨k', r, .tick hrun⟩
  exits := fun hlength => by
    have hne : k.currentProcess ≠ 0 := fun h0 => by
      rw [hl.tracks.ring.nil_iff.mp h0] at hlength
      contradiction
    obtain ⟨p, hp⟩ := hl.current hne
    obtain ⟨k₁, hfree⟩ := procFreeSpace_returns hl.self p
    exact hl.tracks.exits hlength hp hfree hl.loads
  round := fun es k' hes hlength hrun a ha => hl.tracks.ring.round hes hlength hrun ha
  entry := fun e k' iret => hl.tracks.entry

theorem DirWF.taken_of_isTableOf {s : Vm Pmm} (h : DirWF Pmm.Taken (s.inDir d))
    (hf : IsTableOf s.mem d f) : s.pmm.Taken f := by
  rcases hf with rfl | ⟨j, hj, hp, rfl⟩
  · exact h.dir_taken
  · by_cases hlast : j = 1023
    · have hself : pageFrame (entry s.mem d 1023) = d := h.self.self
      rw [hlast, hself]
      exact h.dir_taken
    · exact h.table_taken j (by unfold pageEntries at hj; omega) hp

/-- As long as there are only creations, all that is in use is marked. -/
theorem NewOwners.spares {k₀ k : Kernel} (h : NewOwners k₀ k os) (hnone : ∀ a, k₀.processes a = none)
    (halloc : AllocsSucceed k len p') : k.Spares k₀.vm.pmm k₀.vm.cr3 len p' where
  allocs := halloc
  frames := fun f hf _ => by
    rcases hf with hold | htable | ⟨a, p, -, hp, hbelongs⟩
    · exact h.owners.old_used _ hold
    · exact (h.owners.shared.wf _ List.mem_cons_self).taken_of_isTableOf htable
    · exact (h.isolated fun _ hb => hb).used ⟨hp, hnone a⟩ hbelongs

/-- A creation of which no allocation fails, and then the calls behind it. -/
theorem NewOwners.always_spares {k₀ k k' : Kernel} (h : NewOwners k₀ k os)
    (hnone : ∀ a, k₀.processes a = none) (hrun : procRunCode k code len = .ok k')
    (hsucc : k.vm.Succeeds k'.vm)
    (hrest : Run.Always SchedStep (fun k e => e.Spares k₀.vm.pmm k₀.vm.cr3 k) k' es) :
    Run.Always SchedStep (fun k e => e.Spares k₀.vm.pmm k₀.vm.cr3 k) k (.create code len :: es) := by
  obtain ⟨hend, halloc⟩ := allocsSucceed_of_ok (h.owners.shared.ready h.current) hrun hsucc
  refine .cons ⟨hend, _, h.spares hnone halloc⟩ fun k'' hstep => ?_
  obtain ⟨r, hreturns⟩ := hstep
  cases hreturns with
  | create _ hrun' =>
      obtain rfl := Except.ok.inj (hrun.symm.trans hrun')
      exact hrest

end NimbleOS
