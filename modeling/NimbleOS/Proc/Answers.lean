import NimbleOS.Pmm.Marks
import NimbleOS.Proc.Space

/-!
# NimbleOS.Proc.Answers

The requests of `proc_run_code` and their answers.  The log of a creation that has built its
address space answers `procRequests` one by one (`Built.requests`), and the answers are all that
it has of the physical memory manager.
-/

namespace NimbleOS

open Pmm

/-- The call of the request, with its answer. -/
def Request.Answers (p : Pmm) (x : Request × Nat) (p' : Pmm) : Prop := x.1.call p = .ok (x.2, p')

/-- Requests are granted with answers other than 0. -/
theorem granted_iff_answers : Run Request.Granted p rs p' ↔
    ∃ xs, xs.map Prod.fst = rs ∧ (∀ x ∈ xs, x.2 ≠ 0) ∧ Run Request.Answers p xs p' := by
  constructor
  · intro h
    induction h with
    | nil p => exact ⟨[], rfl, List.forall_mem_nil _, .nil p⟩
    | @cons p r _ _ _ hstep _ ih =>
        obtain ⟨a, ha, hcall⟩ := hstep
        obtain ⟨xs, rfl, hne, hrun⟩ := ih
        have hanswer : Request.Answers p (r, a) _ := hcall
        exact ⟨(r, a) :: xs, rfl, List.forall_mem_cons.mpr ⟨ha, hne⟩, .cons hanswer hrun⟩
  · rintro ⟨xs, rfl, hne, hrun⟩
    induction hrun with
    | nil p => exact .nil p
    | cons hstep _ ih =>
        obtain ⟨hx, hne⟩ := List.forall_mem_cons.mp hne
        exact .cons ⟨_, hx, hstep⟩ (ih hne)

/-- The same requests have the same answers. -/
theorem answers_unique (h : Run Request.Answers p xs p') (h' : Run Request.Answers p ys p'')
    (hreq : xs.map Prod.fst = ys.map Prod.fst) : xs = ys ∧ p' = p'' := by
  induction h generalizing ys with
  | nil p =>
      obtain rfl := List.map_eq_nil_iff.mp hreq.symm
      cases h'
      exact ⟨rfl, rfl⟩
  | @cons p x _ xs _ hstep _ ih =>
      cases h' with
      | nil => cases hreq
      | @cons _ y _ ys _ hstep' hrest' =>
          obtain ⟨hfst, hreq⟩ := List.cons.inj hreq
          rw [Request.Answers, hfst, hstep'] at hstep
          obtain ⟨hsnd, rfl⟩ := Prod.mk.inj (Except.ok.inj hstep)
          obtain ⟨rfl, rfl⟩ := ih hrest' hreq
          obtain rfl : x = y := Prod.ext hfst hsnd.symm
          exact ⟨rfl, rfl⟩

/-- The request behind a log entry. -/
def Alloc.request : Alloc → Option Request
  | .table _ _ | .directory _ => some .page
  | .pages num _ => some (.pages num)
  | .heap _ _ => none

theorem pmmDraw_iff_answers (he : e.request = some r) :
    PmmDraw p e p' ↔ Request.Answers p (r, e.addr) p' := by
  cases e with
  | table d a =>
      cases he
      exact Iff.rfl
  | directory a =>
      cases he
      exact Iff.rfl
  | pages num a =>
      cases he
      exact ⟨congrArg Except.ok, Except.ok.inj⟩
  | heap size a => cases he

/-- What the log accounts for, in requests and answers. -/
theorem draws_iff_answers {es : List Alloc} {rs : List Request}
    (hes : es.map Alloc.request = rs.map some) :
    Run PmmDraw p es p' ↔ Run Request.Answers p (rs.zip (es.map Alloc.addr)) p' := by
  induction es generalizing p rs with
  | nil =>
      obtain rfl := List.map_eq_nil_iff.mp hes.symm
      constructor
      · rintro ⟨⟩
        exact .nil _
      · rintro ⟨⟩
        exact .nil _
  | cons e es ih =>
      obtain ⟨r, rs, rfl, he, hrest⟩ := List.map_eq_cons_iff.mp hes.symm
      constructor
      · rintro (_ | ⟨hdraw, hdraws⟩)
        exact .cons ((pmmDraw_iff_answers he.symm).mp hdraw) ((ih hrest.symm).mp hdraws)
      · rintro (_ | ⟨hanswer, hanswers⟩)
        exact .cons ((pmmDraw_iff_answers he.symm).mpr hanswer) ((ih hrest.symm).mpr hanswers)

/-- What the log accounts for is the answers to these requests. -/
theorem answers_of_draws {es : List Alloc} {rs : List Request}
    (hes : es.map Alloc.request = rs.map some) (hdraws : Run PmmDraw p es p')
    (h : Run Request.Answers p xs p'') (hxs : xs.map Prod.fst = rs) :
    xs = rs.zip (es.map Alloc.addr) ∧ es.map Alloc.addr = xs.map Prod.snd := by
  have hlength : rs.length = (es.map Alloc.addr).length := by
    have hlen := congrArg List.length hes
    rw [List.length_map, List.length_map] at hlen
    rw [List.length_map, hlen]
  obtain ⟨rfl, -⟩ := answers_unique h ((draws_iff_answers hes).mp hdraws) (by
    rw [hxs, List.map_fst_zip (Nat.le_of_eq hlength)])
  exact ⟨rfl, (List.map_snd_zip (Nat.le_of_eq hlength.symm)).symm⟩

/-! ## the requests of a creation -/

theorem map_request_tables (ts : List (Nat × Nat)) :
    (ts.map fun (d, a) => Alloc.table d a).map Alloc.request =
      List.replicate ts.length (some .page) := by
  rw [List.map_map]
  exact List.map_const'

/-- Creation has asked for a window's table where there was none. -/
theorem Built.length_window {s s' : Vm Pmm} {o : Space} (h : Built s code len s' o) :
    List.replicate o.window.length Request.page = windowRequests s := by
  have hslots : pageSlots windowPage 1 = {windowSlot} :=
    pageSlots_eq_singleton (by decide) (by decide) (by decide)
  have hlength : o.window.length = (s.missing windowPage 1).card := by
    refine h.window.length_eq ?_ (by decide) fun d hd => ?_
    · rintro p f ⟨rfl, -⟩
      exact ⟨Nat.le_refl _, Nat.lt_succ_self _⟩
    · rw [hslots, Finset.mem_singleton] at hd
      exact hd ▸ h.present
  rw [windowRequests_eq, hlength]

/-- Code and stack, with their page tables, answer these requests. -/
theorem Space.owned_requests {o : Space} (hcode : o.codeTables.length = codeSlots len)
    (hstack : o.stackTables.length = if codeSlots len ≤ 767 then 1 else 0) :
    (o.owned len).reverse.map Alloc.request = (codeRequests len ++ stackRequests len).map some := by
  have htables : List.replicate o.stackTables.length Request.page =
      if codeSlots len ≤ 767 then [.page] else [] := by
    rw [hstack]
    split <;> rfl
  rw [codeRequests, ← hcode, stackRequests, ← htables]
  simp only [owned, List.map_reverse, List.map_append, List.reverse_append, map_request_tables,
    List.reverse_replicate, List.map_cons, List.reverse_cons, List.reverse_nil, List.nil_append,
    List.map_replicate, Alloc.request, List.append_assoc, List.cons_append]

/-- The allocations of a creation answer its requests. -/
theorem Built.requests {s s' : Vm Pmm} {o : Space} (h : Built s code len s' o) :
    (o.allocs len).reverse.map Alloc.request = (procRequests s len).map some := by
  rw [procRequests, ← h.length_window, Space.allocs, List.reverse_append, List.map_append,
    Space.owned_requests h.codeTables h.stackTables]
  simp only [List.map_reverse, List.map_append, List.reverse_append, map_request_tables,
    List.reverse_replicate, List.map_cons, List.reverse_cons, List.reverse_nil, List.nil_append,
    List.map_replicate, Alloc.request, List.cons_append]

/-! ## answers with blocks marked -/

theorem Request.Granted.sane (hs : p.Sane) (h : Granted p r p') :
    p'.Sane ∧ p'.maxBlocks = p.maxBlocks ∧ ∀ b, p.isUsed b = true → p'.isUsed b = true := by
  obtain ⟨f, htakes⟩ := h.takes hs
  exact ⟨hs.takes htakes, htakes.maxBlocks_eq, fun _ hb => htakes.isUsed_of_isUsed hs.max_le hb⟩

/-- What was used stays so. -/
theorem granted_sane (hs : p.Sane) (h : Run Request.Granted p rs p') :
    p'.Sane ∧ p'.maxBlocks = p.maxBlocks ∧ ∀ b, p.isUsed b = true → p'.isUsed b = true := by
  induction h with
  | nil p => exact ⟨hs, rfl, fun _ => id⟩
  | cons hstep _ ih =>
      obtain ⟨hs₁, hmax₁, hused₁⟩ := hstep.sane hs
      obtain ⟨hs', hmax', hused'⟩ := ih hs₁
      exact ⟨hs', hmax'.trans hmax₁, fun b hb => hused' b (hused₁ b hb)⟩

/-- The block that the searches answer for "none" is used, where a page is granted. -/
theorem zero_used_of_granted (h : Request.Granted p .page p') : p.isUsed 0 = true := by
  obtain ⟨a, hne, hcall⟩ := h
  rw [Request.call, pmmAllocPage] at hcall
  split at hcall
  · cases hcall
  · dsimp only at hcall
    split at hcall
    · exact absurd (Prod.mk.inj (Except.ok.inj hcall)).1.symm hne
    · next hfind =>
      have hleast := (mmapFindFree_spec p hfind).2.2 0 (Nat.pos_of_ne_zero hfind)
      rw [isFree, Bool.not_eq_false'] at hleast
      exact hleast

namespace Marks

variable {S : Nat → Prop} {p q : Pmm}

theorem call (h : Marks S p q) (hs : p.Sane) (hx : x.2 ≠ 0) (hcall : Request.Answers p x p')
    (hoff : ∀ b, S b → p'.isUsed b = true → p.isUsed b = true) :
    ∃ q', Request.Answers q x q' ∧ Marks S p' q' := by
  obtain ⟨r, a⟩ := x
  cases r with
  | page => exact h.allocPage hs hx hcall hoff
  | pages num =>
      obtain ⟨q', hcall', h'⟩ := h.allocPages hs hx (Except.ok.inj hcall) hoff
      exact ⟨q', congrArg Except.ok hcall', h'⟩

/-- **Run lemma**: requests that keep off the set have the same answers with the set marked. -/
theorem answers (h : Marks S p q) (hs : p.Sane) (hrun : Run Request.Answers p xs p')
    (hne : ∀ x ∈ xs, x.2 ≠ 0) (hoff : ∀ b, S b → p'.isUsed b = true → p.isUsed b = true) :
    ∃ q', Run Request.Answers q xs q' ∧ Marks S p' q' := by
  induction hrun generalizing q with
  | nil p => exact ⟨q, .nil q, h⟩
  | @cons p x p₁ xs p' hstep hrest ih =>
      obtain ⟨hx, hne⟩ := List.forall_mem_cons.mp hne
      obtain ⟨hs₁, -, hused₁⟩ := Request.Granted.sane hs ⟨x.2, hx, hstep⟩
      obtain ⟨-, -, hused'⟩ := granted_sane hs₁ (granted_iff_answers.mpr ⟨xs, rfl, hne, hrest⟩)
      obtain ⟨q₁, hstep', h₁⟩ := h.call hs hx hstep fun b hb hused => hoff b hb (hused' b hused)
      obtain ⟨q', hrest', h'⟩ := ih h₁ hs₁ hne fun b hb hused => hused₁ b (hoff b hb hused)
      exact ⟨q', .cons hstep' hrest', h'⟩

end Marks

end NimbleOS
