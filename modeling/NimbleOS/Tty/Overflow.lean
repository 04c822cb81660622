import NimbleOS.Libc.Aton
import NimbleOS.Lib.Stream
import NimbleOS.Tty.Arguments

/-!
# NimbleOS.Tty.Overflow

The calls of `atoi` in the interpreter.  A parameter may have as many digits as the buffer
holds, which are more than an `int` has room for; a call is exact if the number that the
digits denote is below `2 ^ 31`.
-/

namespace NimbleOS

/-- The string in `buf` when `c` ends a parameter: the digits before `current_index` and the
NUL behind them. -/
def ansiAtoiCall (ctx : AnsiContext) (c : BitVec 8) : Option (List (BitVec 8)) :=
  if ctx.state = .params ∧ (c = chr ';' ∨ isalpha c.toInt) then
    some (ctx.buf.toList.take ctx.currentIndex ++ [0])
  else none

/-- One byte fed to the interpreter, while the terminal is `x.1`. -/
def ansiStep (ctx : AnsiContext) (x : Term × BitVec 8) : Except Halt AnsiContext := do
  let (_, ctx, _) ← ansiInterpretChar ctx x.1 x.2
  return ctx

/-- The digits received for the open parameter. -/
def Pending.digits : Pending → List (BitVec 8)
  | .params w => (scanParams w).2
  | _ => []

/-- Whether `c` ends a parameter. -/
def Pending.Ends : Pending → BitVec 8 → Prop
  | .params _, c => c = chr ';' ∨ isalpha c.toInt
  | _, _ => False

/-- The call of `atoi` for the byte, if there is one, overflows nowhere and returns the
number that the digits denote, and this is the value stored. -/
def CallExact (p : Pending) (ctx : AnsiContext) (x : Term × BitVec 8) : Prop :=
  ∀ s, ansiAtoiCall ctx x.2 = some s →
    atoiExact s = some (decimal p.digits : Int) ∧
      ∀ ctx', ansiStep ctx x = .ok ctx' → ctx'.args.toList.getD ctx.currentArg 0 = decimal p.digits

/-! ## one call -/

/-- The loop stops at a NUL behind the digits. -/
theorem atonDigits_append_nul {t : CType} (h : ∀ c ∈ ds, isdigit c.toInt = true) (n : Int) :
    atonDigits t (ds ++ [0]) n = atonDigits t ds n := by
  induction ds generalizing n with
  | nil =>
      have hnul : ¬ isdigit (0 : BitVec 8).toInt = true := by decide
      simp only [List.nil_append, atonDigits, if_neg hnul]
  | cons c ds ih =>
      obtain ⟨hc, hds⟩ := List.forall_mem_cons.mp h
      simp only [List.cons_append, atonDigits, if_pos hc, ih hds]

theorem atoiExact_append_nul (h : ∀ c ∈ ds, isdigit c.toInt = true) :
    atoiExact (ds ++ [0]) = CType.int.fit (decimal ds) := by
  rw [← aton_digits h (by decide) (by decide)]
  cases ds with
  | nil => rfl
  | cons c ds =>
      have hc := (List.forall_mem_cons.mp h).1
      rw [atoiExact, List.cons_append, aton_cons_digit hc, aton_cons_digit hc, ← List.cons_append,
        atonDigits_append_nul h]

/-- A text of digits is converted without overflow exactly if it denotes a number below
`2 ^ 31`. -/
theorem atoiExact_iff (h : ∀ c ∈ ds, isdigit c.toInt = true) :
    atoiExact (ds ++ [0]) = some (decimal ds : Int) ↔ decimal ds < 2 ^ 31 := by
  rw [atoiExact_append_nul h, CType.fit_eq_some_iff, and_iff_left rfl, CType.Has]
  simp only [CType.int]
  exact ⟨fun hfits => by omega, fun hlt => by omega⟩

theorem Pending.digits_isdigit (p : Pending) : ∀ c ∈ p.digits, isdigit c.toInt = true := by
  cases p with
  | none => exact fun _ hc => by cases hc
  | escape => exact fun _ hc => by cases hc
  | params w => exact fun _ hc => isdigit_of_mem_scanParams hc

/-- The string passed is that of the digits received. -/
theorem Pending.Reads.atoiCall {p : Pending} (h : p.Reads ctx) (c : BitVec 8) :
    (p.Ends c → ansiAtoiCall ctx c = some (p.digits ++ [0])) ∧
      (¬ p.Ends c → ansiAtoiCall ctx c = .none) := by
  cases p with
  | none =>
      refine ⟨False.elim, fun _ => if_neg fun hcall => ?_⟩
      rw [h.describes.1] at hcall
      cases hcall.1
  | escape =>
      refine ⟨False.elim, fun _ => if_neg fun hcall => ?_⟩
      rw [h.describes.1] at hcall
      cases hcall.1
  | params w =>
      refine ⟨fun hends => ?_, fun hends => if_neg fun hcall => hends hcall.2⟩
      rw [ansiAtoiCall, if_pos ⟨h.describes.1, hends⟩, (h.collected w rfl).2]
      rfl

/-- What a byte that ends a parameter stores. -/
theorem ansiStep_args (hparams : ctx.state = .params) (hends : c = chr ';' ∨ isalpha c.toInt)
    (h : ansiStep ctx (t, c) = .ok ctx') :
    ctx'.args.toList.getD ctx.currentArg 0 =
      (atoi (ctx.buf.toList.take ctx.currentIndex ++ [0])).toNat := by
  obtain ⟨r, hans, hctx⟩ := bind_eq_ok.mp h
  obtain rfl := Except.ok.inj hctx
  have hargs : ∃ d, ansiEndParam ctx = .ok d ∧ r.2.1.args = d.args := by
    cases hends with
    | inl hsep =>
        rw [ansiInterpretChar_separator hparams hsep] at hans
        obtain ⟨d, hend, hans⟩ := bind_eq_ok.mp hans
        obtain rfl := Except.ok.inj hans
        exact ⟨d, hend, rfl⟩
    | inr halpha =>
        rw [ansiInterpretChar_letter hparams halpha] at hans
        obtain ⟨d, hend, hans⟩ := bind_eq_ok.mp hans
        obtain rfl := Except.ok.inj hans
        exact ⟨d, hend, (ansiCommand_context d t c).2⟩
  obtain ⟨d, hend, hargs⟩ := hargs
  by_cases hroom : ctx.currentIndex < ansiBufferSize ∧ ctx.currentArg < ansiBufferSize
  · obtain ⟨d', hend', hd⟩ := ansiEndParam_spec hroom.1 hroom.2
    obtain rfl := Except.ok.inj (hend.symm.trans hend')
    have hlen : ctx.currentArg < ctx.args.toList.length := by
      rw [Vector.length_toList]
      exact hroom.2
    rw [hargs, hd.args, List.getD_eq_getElem?_getD, List.getElem?_set_self hlen]
    rfl
  · rw [ansiEndParam_error hroom] at hend
    cases hend

/-- **One byte**: its call is exact exactly if the number is below `2 ^ 31`. -/
theorem Pending.Reads.callExact_iff {p : Pending} (h : p.Reads ctx) (x : Term × BitVec 8) :
    CallExact p ctx x ↔ (p.Ends x.2 → decimal p.digits < 2 ^ 31) := by
  obtain ⟨hcall, hnone⟩ := h.atoiCall x.2
  by_cases hends : p.Ends x.2
  · rw [CallExact, hcall hends]
    constructor
    · exact fun hall _ => (atoiExact_iff p.digits_isdigit).mp (hall _ rfl).1
    · rintro hlt s hs
      obtain rfl := Option.some.inj hs
      refine ⟨(atoiExact_iff p.digits_isdigit).mpr (hlt hends), fun ctx' hstep => ?_⟩
      cases p with
      | none => cases hends
      | escape => cases hends
      | params w =>
          rw [ansiStep_args h.describes.1 hends hstep, (h.collected w rfl).2,
            atoi_append_nul (fun _ hc => isdigit_of_mem_scanParams hc),
            atoi_eq_decimal (fun _ hc => isdigit_of_mem_scanParams hc), BitVec.toNat_ofNat]
          exact Nat.mod_eq_of_lt (Nat.lt_trans (hlt hends) (by decide))
  · rw [CallExact, hnone hends]
    exact iff_of_true (fun _ hs => by cases hs) fun h => absurd h hends

/-! ## streams -/

/-- The text of the bytes fed so far. -/
theorem pending_map_snd (xs : List (Term × BitVec 8)) :
    pending (xs.map Prod.snd) = xs.foldl (fun p x => p.next x.2) .none := by
  rw [pending, List.foldl_map]

/-- Without room the interpreter writes past an array. -/
theorem ansiStep_error {p : Pending} (h : p.Reads ctx) {x : Term × BitVec 8} (hr : ¬ p.Room x.2) :
    ansiStep ctx x = .error .outOfBounds := by
  rw [ansiStep, ansiInterpretChar_error h.describes hr]
  rfl

theorem ansiStep_ok {p : Pending} (h : p.Reads ctx) {x : Term × BitVec 8} (hr : p.Room x.2) :
    ∃ ctx', ansiStep ctx x = .ok ctx' ∧ (p.next x.2).Reads ctx' := by
  obtain ⟨escaped, ctx', t', hans, hreads, -⟩ := ansiInterpretChar_spec h hr x.1
  refine ⟨ctx', ?_, hreads⟩
  rw [ansiStep, hans]
  rfl

/-- The interpreter takes exactly the streams within its arrays. -/
theorem ansiFeed_ok_iff (h : Pending.none.Reads ctx) (xs : List (Term × BitVec 8)) :
    (∃ ctx', xs.foldlM ansiStep ctx = .ok ctx') ↔ InRoom (xs.map Prod.snd) := by
  have hok : (∃ ctx', xs.foldlM ansiStep ctx = .ok ctx') ↔ ∀ pre x post, xs = pre ++ x :: post →
      (pre.foldl (fun (p : Pending) x => p.next x.2) .none).Room x.2 :=
    Stream.foldlM_ok_iff (fun p x => p.Room x.2) Pending.Reads (fun p s x hp hr => ansiStep_ok (x := x) hp hr)
      (fun p s x hp hr => ⟨_, ansiStep_error (x := x) hp hr⟩) h xs
  rw [hok]
  constructor
  · intro hall pre c post heq
    obtain ⟨pre', rest, hxs, rfl, hrest⟩ := List.map_eq_append_iff.mp heq
    obtain ⟨x, post', rfl, rfl, -⟩ := List.map_eq_cons_iff.mp hrest
    rw [pending_map_snd]
    exact hall pre' x post' hxs
  · intro hall pre x post heq
    have hroom := hall (pre.map Prod.snd) x.2 (post.map Prod.snd) (by rw [heq]; simp)
    rwa [pending_map_snd] at hroom

/-- The prefixes of a stream within the arrays are within them. -/
theorem InRoom.of_map_append {xs : List (Term × BitVec 8)} (h : InRoom (xs.map Prod.snd))
    (heq : xs = pre ++ rest) : InRoom (pre.map Prod.snd) := by
  intro before c after hpre
  refine h before c (after ++ rest.map Prod.snd) ?_
  rw [heq, List.map_append, hpre, List.append_assoc, List.cons_append]

/-- What the stream has left in the context. -/
theorem ansiFeed_reads (h : Pending.none.Reads ctx) {xs : List (Term × BitVec 8)}
    (hrun : xs.foldlM ansiStep ctx = .ok ctx') : (pending (xs.map Prod.snd)).Reads ctx' := by
  rw [pending_map_snd]
  refine Stream.foldlM_inv Pending.Reads (fun p s x s' hp hstep => ?_) h hrun
  by_cases hr : p.Room x.2
  · obtain ⟨s'', hok, hreads⟩ := ansiStep_ok hp hr
    rw [hok] at hstep
    exact Except.ok.inj hstep ▸ hreads
  · rw [ansiStep_error hp hr] at hstep
    cases hstep

/-- **Which streams overflow no conversion.**  From the initial context, whatever the terminal
is at each byte: the stream is taken to its end, every call of `atoi` is exact and its value
stored, exactly if every parameter that ends has room in the arrays and denotes a number below
`2 ^ 31`. -/
theorem ansi_atoi_exact_iff (hctx : ctx.Started) (xs : List (Term × BitVec 8)) :
    ((∃ ctx', xs.foldlM ansiStep ctx = .ok ctx') ∧
        Stream.EachStep ansiStep (fun p x => p.next x.2) CallExact .none ctx xs) ↔
      InRoom (xs.map Prod.snd) ∧ ∀ pre x post, xs = pre ++ x :: post →
        (pending (pre.map Prod.snd)).Ends x.2 →
          decimal (pending (pre.map Prod.snd)).digits < 2 ^ 31 := by
  have h := hctx.reads
  rw [ansiFeed_ok_iff h]
  constructor
  · rintro ⟨hroom, hall⟩
    refine ⟨hroom, fun pre x post heq hends => ?_⟩
    obtain ⟨ctx', hrun⟩ := (ansiFeed_ok_iff h pre).mpr (hroom.of_map_append heq)
    have hexact := hall pre x post ctx' heq hrun
    rw [← pending_map_snd] at hexact
    exact ((ansiFeed_reads h hrun).callExact_iff x).mp hexact hends
  · rintro ⟨hroom, hall⟩
    refine ⟨hroom, fun pre x post ctx' heq hrun => ?_⟩
    rw [← pending_map_snd]
    exact ((ansiFeed_reads h hrun).callExact_iff x).mpr (hall pre x post heq)

/-- The bytes of a text, all of them while the terminal is the initial one. -/
def onStart (text : List (BitVec 8)) : List (Term × BitVec 8) := text.map fun c => (Tty.start.term, c)

/-- The conversion of `5`. -/
theorem ansi_atoi_exact_iff_blinkOn :
    (∃ ctx', (onStart blinkOn).foldlM ansiStep .zeroed = .ok ctx') ∧
      Stream.EachStep ansiStep (fun p x => p.next x.2) CallExact .none .zeroed (onStart blinkOn) := by
  have hroom : InRoom ((onStart blinkOn).map Prod.snd) :=
    (ansiFeed_ok_iff (AnsiContext.Started.reads (.inl rfl)) (onStart blinkOn)).mp ⟨_, rfl⟩
  refine (ansi_atoi_exact_iff (.inl rfl) (onStart blinkOn)).mpr ⟨hroom, fun pre x post heq _ => ?_⟩
  have hprefix : pre.map Prod.snd <+: blinkOn := by
    have hmap := congrArg (List.map Prod.snd) heq
    rw [List.map_append, onStart, List.map_map] at hmap
    exact ⟨_, hmap.symm⟩
  have hdigits : ∀ n < 5, decimal (pending (blinkOn.take n)).digits < 2 ^ 31 := by decide
  rw [List.prefix_iff_eq_take.mp hprefix]
  exact hdigits _ (Nat.lt_succ_of_le hprefix.length_le)

/-- A sequence whose parameter is `2 ^ 31`. -/
def bigParam : List (BitVec 8) := "\x1b[2147483648".toList.map chr

/-- Its conversion overflows in the negation. -/
theorem ansi_atoi_overflow : ¬ Stream.EachStep ansiStep (fun p x => p.next x.2) CallExact .none .zeroed
    (onStart (bigParam ++ [chr 'm'])) := by
  intro hall
  have h : Pending.none.Reads AnsiContext.zeroed := AnsiContext.Started.reads (.inl rfl)
  have hpre : (onStart bigParam).map Prod.snd = bigParam := by simp [onStart, Function.comp_def]
  have hdigits : (pending bigParam).digits = "2147483648".toList.map chr := by decide
  obtain ⟨ctx', hrun⟩ : ∃ ctx', (onStart bigParam).foldlM ansiStep .zeroed = .ok ctx' := ⟨_, rfl⟩
  have hexact := hall (onStart bigParam) (Tty.start.term, chr 'm') [] ctx' (by simp [onStart]) hrun
  rw [← pending_map_snd, hpre] at hexact
  have hreads := ansiFeed_reads h hrun
  rw [hpre] at hreads
  have hlt := (hreads.callExact_iff _).mp hexact (.inr (by decide))
  rw [hdigits] at hlt
  exact absurd hlt (by decide)

end NimbleOS
