import NimbleOS.Proc.Stacks

/-!
# NimbleOS.Proc.Turns

Who runs when.  A process waits for those before it in the ring, and for the ones that are
created behind the current process in the meantime; each turn, be it a tick, a yield or an
exit, brings it one place nearer.
-/

namespace NimbleOS

/-- The number of turns. -/
def turns (es : List SchedEvent) : Nat := es.countP fun e => !e.isCreate

/-- The number of processes that are created. -/
def creates (es : List SchedEvent) : Nat := es.countP SchedEvent.isCreate

theorem turns_cons (e : SchedEvent) (es : List SchedEvent) :
    turns (e :: es) = turns es + if e.isCreate then 0 else 1 := by
  rw [turns, List.countP_cons]
  cases e.isCreate <;> rfl

theorem creates_cons (e : SchedEvent) (es : List SchedEvent) :
    creates (e :: es) = creates es + if e.isCreate then 1 else 0 :=
  List.countP_cons

/-- The process with `d` before it has not come up before the last of the events. -/
def Waits (d : Nat) (es : List SchedEvent) : Prop :=
  ∀ pre e post, es = pre ++ e :: post → turns pre < d + creates pre

theorem Waits.head (h : Waits d (e :: es)) : 0 < d := h [] e es rfl

theorem Waits.tail (h : Waits d (e :: es)) :
    Waits (if e.isCreate then d + 1 else d - 1) es := by
  intro pre e' post heq
  have hpos := h.head
  have hpre := h (e :: pre) e' post (by rw [heq, List.cons_append])
  rw [turns_cons, creates_cons] at hpre
  split <;> rename_i he
  · rw [if_pos he, if_pos he] at hpre
    omega
  · rw [if_neg he, if_neg he] at hpre
    omega

/-- **Step lemma**: a creation puts a waiting process one place back, a turn one place forward. -/
theorem HistoryStep.place {h h' : History} (hstep : HistoryStep h e h') (hpos : 0 < d)
    (ha : h.ring[d]? = some a) : h'.ring[if e.isCreate then d + 1 else d - 1]? = some a := by
  obtain ⟨n, rfl⟩ := Nat.exists_eq_succ_of_ne_zero (Nat.ne_of_gt hpos)
  have hrotate : ∀ xs : List Nat, xs[n + 1]? = some a → (xs.rotate 1)[n]? = some a := by
    intro xs hxs
    cases xs with
    | nil => cases hxs
    | cons x xs =>
        have hlt := (List.getElem?_eq_some_iff.mp hxs).1
        rw [List.rotate_cons_succ, List.rotate_zero,
          List.getElem?_append_left (Nat.lt_of_succ_lt_succ hlt)]
        exact hxs
  cases hstep with
  | create hnew =>
      cases hring : h.ring with
      | nil =>
          rw [hring] at ha
          cases ha
      | cons x xs =>
          rw [hring] at ha
          exact ha
  | switch => exact hrotate _ ha
  | tick => exact hrotate _ ha
  | exit hring =>
      rw [hring] at ha
      exact ha

/-- **Run lemma**: its place is what it was, and one more for each creation, one less for each
turn. -/
theorem place_of_run {h h' : History} (hrun : Run HistoryStep h es h') (ha : h.ring[d]? = some a)
    (hwaits : Waits d es) :
    turns es ≤ d + creates es ∧ h'.ring[d + creates es - turns es]? = some a := by
  induction hrun generalizing d with
  | nil => exact ⟨Nat.zero_le _, ha⟩
  | @cons h e h₁ es h' hstep _ ih =>
      have hpos := hwaits.head
      obtain ⟨hle, hplace⟩ := ih (hstep.place hpos ha) hwaits.tail
      rw [turns_cons, creates_cons]
      cases he : e.isCreate with
      | true =>
          rw [he, if_pos rfl] at hle hplace
          rw [if_pos rfl, if_pos rfl]
          refine ⟨by omega, ?_⟩
          rw [← hplace]
          congr 1
          omega
      | false =>
          rw [he, if_neg Bool.false_ne_true] at hle hplace
          rw [if_neg Bool.false_ne_true, if_neg Bool.false_ne_true]
          refine ⟨by omega, ?_⟩
          rw [← hplace]
          congr 1
          omega

/-- The current process is the first of the ring. -/
theorem RingAt.current_iff {k : Kernel} (h : RingAt k xs) (ha : xs[n]? = some a) :
    k.currentProcess = a ↔ n = 0 := by
  obtain ⟨hn, rfl⟩ := List.getElem?_eq_some_iff.mp ha
  have hpos : 0 < xs.length := Nat.zero_lt_of_lt hn
  have hcurrent : k.currentProcess = xs[0] := by
    rw [h.current]
    cases xs with
    | nil => cases hpos
    | cons x xs => rfl
  rw [hcurrent, List.Nodup.getElem_inj_iff h.nodup]
  exact eq_comm

/-- There is one ring. -/
theorem RingAt.unique {k : Kernel} (h : RingAt k xs) (h' : RingAt k ys) : xs = ys := by
  match xs, ys, h, h' with
  | [], ys, h, h' => exact (h'.nil_iff.mp h.current).symm
  | x :: xs, [], h, h' => exact h.nil_iff.mp h'.current
  | x :: xs, y :: ys, h, h' =>
      obtain rfl : x = y := h.current.symm.trans h'.current
      obtain ⟨hx, -⟩ := List.nodup_cons.mp h.nodup
      obtain ⟨hy, -⟩ := List.nodup_cons.mp h'.nodup
      rw [Ring.Leads.unique h.links h'.links hx hy]

/-- **Turns.**  In whatever state calls have led to since boot, the process with `d` others
before it in the ring runs for the first time when there have been `d` turns, and one more for
each process created since, and not before; whatever the processes do with their turns. -/
theorem process_runs_in_turn (hrun₀ : Run SchedStep (bootKernel vm esp0) es₀ k)
    (hring : RingAt k ring) (ha : ring[d]? = some a) (hrun : Run SchedStep k es k')
    (hwaits : Waits d es) : k'.currentProcess = a ↔ turns es = d + creates es := by
  obtain ⟨h, -, ht⟩ :=
    Run.simulate Tracks (fun _ _ e _ ht hstep => ht.step (e := e) hstep) hrun₀ (tracks_boot vm esp0)
  obtain ⟨h', hhistory, ht'⟩ :=
    Run.simulate Tracks (fun _ _ e _ ht hstep => ht.step (e := e) hstep) hrun ht
  rw [hring.unique ht.ring] at ha
  obtain ⟨hle, hplace⟩ := place_of_run hhistory ha hwaits
  rw [ht'.ring.current_iff hplace]
  omega

/-- After a tick the second of two processes runs. -/
theorem process_runs_in_turn_tick : ∃ s₀ k a b k', pagingInit bootVm 0x100000 = .ok s₀ ∧
    Run SchedStep (bootKernel s₀ 0) [.create (fun _ => 0x90) 128, .create (fun _ => 0x90) 128] k ∧
      RingAt k [a, b] ∧ Run SchedStep k [.tick procInitialRegisters] k' ∧ k'.currentProcess = b := by
  obtain ⟨s₀, k, a, b, ds, hinit, hrun₀, hring, -, hspaces⟩ := twoRing
  obtain ⟨k', r, htick, -⟩ := hring.tick (hspaces.loads _) procInitialRegisters
  have hrun : Run SchedStep k [.tick procInitialRegisters] k' := .single ⟨r, .tick htick⟩
  have hwaits : Waits 1 [.tick procInitialRegisters] := by
    intro pre e post heq
    obtain rfl : pre = [] := by
      have hlen := congrArg List.length heq
      simp only [List.length_append, List.length_cons, List.length_nil] at hlen
      exact List.eq_nil_of_length_eq_zero (by omega)
    decide
  exact ⟨s₀, k, a, b, k', hinit, hrun₀, hring, hrun,
    (process_runs_in_turn hrun₀ hring (d := 1) rfl hrun hwaits).mpr rfl⟩

end NimbleOS
