import Mathlib.Data.BitVec
import NimbleOS.Lib.ByteMem
import NimbleOS.Libc.Aton
import NimbleOS.Libc.Printf

/-!
# NimbleOS.Libc.Buffer

`itoa`, `utoa` and `lltoa` as they run on the buffer they are given: the digits are stored
one after the other, then the NUL, and then a second loop swaps the two ends inwards.  All
arithmetic is that of the argument's type, and the buffer remembers at which of its indices
something was stored.
-/

namespace NimbleOS

/-- The memory from `str` on, and the indices stored to so far. -/
structure Buf where
  mem : ByteMem
  stores : List Nat

/-- `str[i] = c`. -/
def Buf.store (b : Buf) (i : Nat) (c : BitVec 8) : Buf :=
  { mem := b.mem.setByte i c, stores := i :: b.stores }

/-- The character of the string literal that `i` indexes. -/
def tableAt (i : Int) : Option (BitVec 8) := if 0 ≤ i then digitTable[i.toNat]? else none

/-- `do { *ptr++ = table[35 + value % base]; value /= base; } while (value)`. -/
def toaDigits (t : CType) (base : Int) : (fuel : Nat) → (value : Int) → (ptr : Nat) → Buf →
    Option (Nat × Buf)
  | 0, _, _, _ => none
  | fuel + 1, value, ptr, b => do
      let r ← t.fit (value.tmod base)
      let i ← t.fit (35 + r)
      let c ← tableAt i
      let value ← t.fit (value.tdiv base)
      if value = 0 then some (ptr + 1, b.store ptr c)
      else toaDigits t base fuel value (ptr + 1) (b.store ptr c)

/-- `while (low < ptr) { tmp = *low; *low++ = *ptr; *ptr-- = tmp; }`. -/
def toaSwap (low ptr : Nat) (b : Buf) : Buf :=
  if low < ptr then
    toaSwap (low + 1) (ptr - 1) ((b.store low (b.mem ptr)).store ptr (b.mem low))
  else b
termination_by ptr - low

/-- The common text of the three functions.  `utoa` has no test for a sign; its values are
not negative. -/
def toa (t : CType) (value : Int) (base : Int) (b : Buf) : Option Buf :=
  if base < 2 ∨ base > 36 then some (b.store 0 0)
  else do
    let low := if value < 0 ∧ base = 10 then 1 else 0
    let b := if value < 0 ∧ base = 10 then b.store 0 (chr '-') else b
    let (ptr, b) ← toaDigits t base (value.natAbs + 1) value low b
    return toaSwap low (ptr - 1) (b.store ptr 0)

def itoaBuf (value : BitVec 32) (base : Int) : Buf → Option Buf := toa .int value.toInt base

def utoaBuf (value : BitVec 32) (base : Nat) : Buf → Option Buf := toa .unsignedInt value.toNat base

def lltoaBuf (value : BitVec 64) (base : Int) : Buf → Option Buf := toa .longLong value.toInt base

/-! ## stores in a row -/

@[simp] theorem Buf.mem_store (b : Buf) (i : Nat) (c : BitVec 8) :
    (b.store i c).mem = b.mem.setByte i c := rfl

@[simp] theorem Buf.stores_store (b : Buf) (i : Nat) (c : BitVec 8) :
    (b.store i c).stores = i :: b.stores := rfl

/-- The characters `cs`, stored from `p` on. -/
def Buf.put (b : Buf) (p : Nat) : List (BitVec 8) → Buf
  | [] => b
  | c :: cs => (b.store p c).put (p + 1) cs

theorem Buf.put_append (b : Buf) (p : Nat) (cs cs' : List (BitVec 8)) :
    b.put p (cs ++ cs') = (b.put p cs).put (p + cs.length) cs' := by
  induction cs generalizing b p with
  | nil => rfl
  | cons c cs ih =>
      rw [List.cons_append, put, ih, put, List.length_cons, Nat.add_assoc, Nat.add_comm 1]

theorem Buf.mem_put_of_lt (b : Buf) (cs : List (BitVec 8)) (h : i < p) :
    (b.put p cs).mem i = b.mem i := by
  induction cs generalizing b p with
  | nil => rfl
  | cons c cs ih => rw [put, ih _ (by omega), mem_store, ByteMem.setByte, if_neg (by omega)]

/-- What a row of stores leaves in memory. -/
theorem Buf.mem_put (b : Buf) (p : Nat) (cs : List (BitVec 8)) (i : Nat) :
    (b.put p cs).mem (p + i) = (cs[i]?).getD (b.mem (p + i)) := by
  induction cs generalizing b p i with
  | nil => rfl
  | cons c cs ih =>
      rw [put]
      cases i with
      | zero =>
          rw [mem_put_of_lt _ _ (by omega), mem_store, ByteMem.setByte, if_pos (by omega)]
          rfl
      | succ i =>
          rw [show p + (i + 1) = p + 1 + i by omega, ih, mem_store, ByteMem.setByte,
            if_neg (by omega)]
          rfl

theorem Buf.mem_stores_put (b : Buf) (p : Nat) (cs : List (BitVec 8)) (i : Nat) :
    i ∈ (b.put p cs).stores ↔ (p ≤ i ∧ i < p + cs.length) ∨ i ∈ b.stores := by
  induction cs generalizing b p with
  | nil => simp [put]
  | cons c cs ih =>
      rw [put, ih, stores_store, List.mem_cons, List.length_cons]
      by_cases hmem : i ∈ b.stores
      · simp [hmem]
      · simp only [hmem, or_false]
        omega

/-! ## the two loops -/

/-- The arithmetic of a round stays within the type. -/
theorem toaDigits_succ {t : CType} {base : Nat} (hlo : 2 ≤ base) (hhi : base ≤ 36) (h0 : t.Has 0)
    (h70 : t.Has 70) (hv : t.Has v) (fuel ptr : Nat) (b : Buf) :
    t.Has (v.tdiv base) ∧ toaDigits t base (fuel + 1) v ptr b =
      if v.tdiv base = 0 then some (ptr + 1, b.store ptr (digitChar (v.natAbs % base)))
      else toaDigits t base fuel (v.tdiv base) (ptr + 1)
        (b.store ptr (digitChar (v.natAbs % base))) := by
  have hmod : (v.tmod base).natAbs = v.natAbs % base := Int.natAbs_tmod v base
  have hdiv : (v.tdiv base).natAbs = v.natAbs / base := Int.natAbs_tdiv v base
  have hmodle := Nat.mod_le v.natAbs base
  have hdivle := Nat.div_le_self v.natAbs base
  have hlt := Nat.mod_lt v.natAbs (y := base) (by omega)
  have hsigns : 0 ≤ v ∧ 0 ≤ v.tmod base ∧ 0 ≤ v.tdiv base ∨
      v ≤ 0 ∧ v.tmod base ≤ 0 ∧ v.tdiv base ≤ 0 := by
    rcases Int.le_total 0 v with h | h
    · exact .inl ⟨h, Int.tmod_nonneg _ h, Int.tdiv_nonneg h (Int.natCast_nonneg base)⟩
    · have hmod' := Int.tmod_nonneg (base : Int) (a := -v) (by omega)
      have hdiv' := Int.tdiv_nonneg (a := -v) (by omega) (Int.natCast_nonneg base)
      rw [Int.neg_tmod] at hmod'
      rw [Int.neg_tdiv] at hdiv'
      exact .inr ⟨h, by omega, by omega⟩
  have hr : t.Has (v.tmod base) := hv.of_natAbs_le h0 (by omega) (by omega)
  have hi : t.Has (35 + v.tmod base) := by
    unfold CType.Has at *
    omega
  have hq : t.Has (v.tdiv base) := hv.of_natAbs_le h0 (by omega) (by omega)
  have htable : tableAt (35 + v.tmod base) = some (digitChar (v.natAbs % base)) := by
    rw [tableAt, if_pos (by omega), digitTable_middle (by omega), hmod]
  refine ⟨hq, ?_⟩
  rw [toaDigits, CType.fit_of_has hr]
  simp only [Option.bind_eq_bind, Option.bind_some, CType.fit_of_has hi, htable, CType.fit_of_has hq]

/-- **The first loop** stores the digits, the least significant first. -/
theorem toaDigits_eq {t : CType} {base : Nat} (hlo : 2 ≤ base) (hhi : base ≤ 36) (h0 : t.Has 0)
    (h70 : t.Has 70) (hv : t.Has v) (hfuel : v.natAbs < fuel) (ptr : Nat) (b : Buf) :
    toaDigits t base fuel v ptr b =
      some (ptr + (Numeral.lsdFirst base v.natAbs).length,
        b.put ptr ((Numeral.lsdFirst base v.natAbs).map digitChar)) := by
  induction fuel generalizing v ptr b with
  | zero => omega
  | succ fuel ih =>
      obtain ⟨hq, hround⟩ := toaDigits_succ hlo hhi h0 h70 hv fuel ptr b
      have hdiv : (v.tdiv base).natAbs = v.natAbs / base := Int.natAbs_tdiv v base
      rw [hround, Numeral.lsdFirst_step hlo]
      by_cases hz : v.tdiv base = 0
      · rw [if_pos hz, if_pos (by omega)]
        rfl
      · have hpos : v.natAbs / base ≠ 0 := by omega
        have hlt : v.natAbs / base < v.natAbs :=
          Nat.div_lt_self (Nat.pos_of_ne_zero fun h => hpos (by rw [h, Nat.zero_div])) hlo
        rw [if_neg hz, if_neg hpos, ih hq (by omega), hdiv, List.map_cons, Buf.put,
          List.length_cons, Nat.add_assoc, Nat.add_comm 1]

/-- **The second loop** reverses what stands between its two pointers. -/
theorem mem_toaSwap (low ptr : Nat) (b : Buf) (i : Nat) :
    (toaSwap low ptr b).mem i = if low ≤ i ∧ i ≤ ptr then b.mem (low + ptr - i) else b.mem i := by
  fun_induction toaSwap low ptr b with
  | case1 low ptr b hlt ih =>
      have hswap : ∀ j, ((b.store low (b.mem ptr)).store ptr (b.mem low)).mem j =
          if j = ptr then b.mem low else if j = low then b.mem ptr else b.mem j := fun j => rfl
      rw [ih, hswap, hswap]
      by_cases hin : low + 1 ≤ i ∧ i ≤ ptr - 1
      · have hmirror : low + 1 + (ptr - 1) - i = low + ptr - i := by omega
        rw [if_pos hin, hmirror, if_neg (by omega), if_neg (by omega),
          if_pos (by omega : low ≤ i ∧ i ≤ ptr)]
      · rw [if_neg hin]
        by_cases hptr : i = ptr
        · subst hptr
          rw [if_pos rfl, if_pos (by omega), Nat.add_sub_cancel]
        · rw [if_neg hptr]
          by_cases hlow : i = low
          · subst hlow
            rw [if_pos rfl, if_pos (by omega), Nat.add_sub_cancel_left]
          · rw [if_neg hlow, if_neg (by omega)]
  | case2 low ptr b hge =>
      split
      · congr 1
        omega
      · rfl

/-- The second loop stores only between its two pointers. -/
theorem mem_stores_toaSwap (low ptr : Nat) (b : Buf) (i : Nat) :
    i ∈ (toaSwap low ptr b).stores → i ∈ b.stores ∨ low ≤ i ∧ i ≤ ptr := by
  fun_induction toaSwap low ptr b with
  | case1 low ptr b hlt ih =>
      intro h
      rcases ih h with hmem | hin
      · rw [Buf.stores_store, Buf.stores_store, List.mem_cons, List.mem_cons] at hmem
        rcases hmem with rfl | rfl | hmem
        · exact .inr ⟨Nat.le_of_lt hlt, Nat.le_refl _⟩
        · exact .inr ⟨Nat.le_refl _, Nat.le_of_lt hlt⟩
        · exact .inl hmem
      · exact .inr (by omega)
  | case2 low ptr b hge => exact .inl

theorem mem_stores_toaSwap_of_mem (low ptr : Nat) (b : Buf) (h : i ∈ b.stores) :
    i ∈ (toaSwap low ptr b).stores := by
  fun_induction toaSwap low ptr b with
  | case1 low ptr b hlt ih =>
      exact ih (List.mem_cons_of_mem _ (List.mem_cons_of_mem _ h))
  | case2 low ptr b hge => exact h

/-! ## the whole function -/

/-- `b'` is `b` with the text `s` and its NUL written into it, and nothing else. -/
structure Buf.Written (b : Buf) (s : List (BitVec 8)) (b' : Buf) : Prop where
  text : ∀ i, i ≤ s.length → b'.mem i = s.getD i 0
  rest : ∀ i, s.length < i → b'.mem i = b.mem i
  stores : ∀ i, i ∈ b'.stores ↔ i ≤ s.length ∨ i ∈ b.stores

/-- A row of stores with the NUL behind, turned around behind the sign. -/
theorem written_toaSwap (b : Buf) (sign ds : List (BitVec 8)) (hds : ds ≠ []) :
    b.Written (sign ++ ds.reverse)
      (toaSwap sign.length (sign.length + ds.length - 1) (b.put 0 (sign ++ ds ++ [0]))) := by
  have hpos := List.length_pos_of_ne_nil hds
  have hput : ∀ i, (b.put 0 (sign ++ ds ++ [0])).mem i =
      ((sign ++ ds ++ [0])[i]?).getD (b.mem i) := by
    intro i
    have h := b.mem_put 0 (sign ++ ds ++ [0]) i
    rwa [Nat.zero_add] at h
  refine ⟨fun i hi => ?_, fun i hi => ?_, fun i => ?_⟩
  · rw [List.length_append, List.length_reverse] at hi
    rw [mem_toaSwap, List.getD_eq_getElem?_getD]
    by_cases hin : sign.length ≤ i ∧ i ≤ sign.length + ds.length - 1
    · have hmirror : sign.length + (sign.length + ds.length - 1) - i - sign.length =
          ds.length - 1 - (i - sign.length) := by omega
      rw [if_pos hin, hput, List.append_assoc, List.getElem?_append_right (by omega),
        List.getElem?_append_left (by omega), hmirror, List.getElem?_append_right hin.1,
        List.getElem?_reverse (by omega), List.getElem?_eq_getElem (by omega)]
      rfl
    · rw [if_neg hin, hput]
      by_cases hsign : i < sign.length
      · rw [List.append_assoc, List.getElem?_append_left hsign, List.getElem?_append_left hsign,
          List.getElem?_eq_getElem hsign]
        rfl
      · obtain rfl : i = sign.length + ds.length := by omega
        have hnul : (sign ++ ds ++ [0])[sign.length + ds.length]? = some 0 := by
          rw [← List.length_append, List.getElem?_concat_length]
        rw [hnul, List.getElem?_eq_none (by simp)]
        rfl
  · rw [List.length_append, List.length_reverse] at hi
    rw [mem_toaSwap, if_neg (by omega), hput, List.getElem?_eq_none (by simp; omega)]
    rfl
  · have hstored := b.mem_stores_put 0 (sign ++ ds ++ [0]) i
    rw [List.length_append, List.length_append, List.length_singleton] at hstored
    rw [List.length_append, List.length_reverse]
    constructor
    · intro h
      rcases mem_stores_toaSwap _ _ _ i h with hmem | hin
      · rcases hstored.mp hmem with hnew | hold
        · exact .inl (by omega)
        · exact .inr hold
      · exact .inl (by omega)
    · rintro (hle | hold)
      · exact mem_stores_toaSwap_of_mem _ _ _ (hstored.mpr (.inl (by omega)))
      · exact mem_stores_toaSwap_of_mem _ _ _ (hstored.mpr (.inr hold))

/-- **itoa on a buffer**: nothing overflows, and the buffer holds the text. -/
theorem toa_eq {t : CType} (h0 : t.Has 0) (h70 : t.Has 70) (hv : t.Has v) (base : Int) (b : Buf) :
    ∃ b', toa t v base b = some b' ∧ b.Written (itoa v base) b' := by
  rw [toa, itoa]
  by_cases hbase : base < 2 ∨ base > 36
  · rw [if_pos hbase, if_pos hbase]
    refine ⟨b.store 0 0, rfl, fun i hi => ?_, fun i hi => ?_, fun i => ?_⟩
    · obtain rfl := Nat.le_zero.mp hi
      rfl
    · exact if_neg (Nat.ne_of_gt hi)
    · rw [Buf.stores_store, List.mem_cons, List.length_nil, Nat.le_zero]
  · rw [if_neg hbase, if_neg hbase]
    obtain ⟨base, rfl⟩ := Int.eq_ofNat_of_zero_le (a := base) (by omega)
    have hlo : 2 ≤ base := by omega
    have hhi : base ≤ 36 := by omega
    simp only [toaDigits_eq hlo hhi h0 h70 hv (Nat.lt_succ_self _), Option.bind_eq_bind,
      Option.bind_some, itoaLoop, itoaDigits_eq hlo hhi (Nat.lt_succ_self v.natAbs)]
    refine ⟨_, rfl, ?_⟩
    have hne := Numeral.lsdFirst_ne_nil base v.natAbs
    have hwritten := fun sign => written_toaSwap b sign ((Numeral.lsdFirst base v.natAbs).map digitChar)
      (by simpa using hne)
    simp only [Buf.put_append, List.length_map, List.length_append, Nat.zero_add] at hwritten
    by_cases hsign : v < 0 ∧ (base : Int) = 10
    · have := hwritten [chr '-']
      simp only [if_pos hsign]
      exact this
    · have := hwritten []
      simp only [if_neg hsign, Nat.zero_add]
      rw [List.length_nil, Nat.zero_add] at this
      exact this

/-! ## decoding what was encoded -/

theorem utoa_eq_itoa (value base : Nat) : utoa value base = itoa value base := by
  rw [utoa, itoa, if_neg fun h : (value : Int) < 0 ∧ _ => by omega, List.nil_append]
  split
  · rw [if_pos (by omega)]
  · rw [if_neg (by omega)]

theorem itoaBuf_eq (value : BitVec 32) (base : Int) (b : Buf) :
    ∃ b', itoaBuf value base b = some b' ∧ b.Written (itoa value.toInt base) b' :=
  toa_eq (by decide) (by decide) (CType.has_int value) base b

theorem utoaBuf_eq (value : BitVec 32) (base : Nat) (b : Buf) :
    ∃ b', utoaBuf value base b = some b' ∧ b.Written (utoa value.toNat base) b' := by
  rw [utoa_eq_itoa]
  exact toa_eq (by decide) (by decide) (CType.has_unsignedInt value) base b

theorem lltoaBuf_eq (value : BitVec 64) (base : Int) (b : Buf) :
    ∃ b', lltoaBuf value base b = some b' ∧ b.Written (itoa value.toInt base) b' :=
  toa_eq (by decide) (by decide) (CType.has_longLong value) base b

/-- A text without NULs is then the string at `str`. -/
theorem Buf.Written.isCString {b b' : Buf} (h : b.Written s b') (hs : ∀ c ∈ s, c ≠ 0) :
    IsCString b'.mem 0 s :=
  isCString_of_getD hs fun i hi => by rw [Nat.zero_add, h.text i hi]

/-- **Decoding undoes encoding**, for `int` and for `long long`, and neither direction
overflows.  In every base the string of an unsigned number is its only numeral. -/
theorem decode_encode :
    (∀ (v : BitVec 32) (b : Buf), ∃ b', itoaBuf v 10 b = some b' ∧ ∃ s, IsCString b'.mem 0 s ∧
      atoiExact s = some v.toInt ∧ atoi s = v) ∧
    (∀ (v : BitVec 64) (b : Buf), ∃ b', lltoaBuf v 10 b = some b' ∧ ∃ s, IsCString b'.mem 0 s ∧
      atoll s = some v.toInt) ∧
    ∀ (base : Nat) (v : BitVec 32) (b : Buf), 2 ≤ base → base ≤ 36 →
      ∃ b', utoaBuf v base b = some b' ∧
        ∀ s, IsCString b'.mem 0 s ↔ IsNumeral base v.toNat s := by
  refine ⟨fun v b => ?_, fun v b => ?_, fun base v b hlo hhi => ?_⟩
  · obtain ⟨b', hb', hwritten⟩ := itoaBuf_eq v 10 b
    have hexact : atoiExact (itoa v.toInt 10) = some v.toInt :=
      aton_itoa (by decide) (by decide) (CType.has_int v)
    refine ⟨b', hb', _, hwritten.isCString fun c => ne_zero_of_mem_itoa, hexact, ?_⟩
    rw [atoi_of_atoiExact hexact, BitVec.ofInt_toInt]
  · obtain ⟨b', hb', hwritten⟩ := lltoaBuf_eq v 10 b
    exact ⟨b', hb', _, hwritten.isCString fun c => ne_zero_of_mem_itoa,
      aton_itoa (by decide) (by decide) (CType.has_longLong v)⟩
  · obtain ⟨b', hb', hwritten⟩ := utoaBuf_eq v base b
    rw [utoa_eq hlo hhi] at hwritten
    have hstring := hwritten.isCString fun c => ne_zero_of_mem_numeral hlo hhi
    refine ⟨b', hb', fun s => ?_⟩
    rw [isNumeral_iff hlo hhi]
    exact ⟨fun h => isCString_unique h hstring, fun h => h ▸ hstring⟩

/-- The theorem for the largest number in base 36. -/
theorem decode_encode_max : ∃ b', utoaBuf (2 ^ 32 - 1) 36 { mem := fun _ => 0, stores := [] } = some b' ∧
    ∀ s, IsCString b'.mem 0 s ↔ IsNumeral 36 (2 ^ 32 - 1 : BitVec 32).toNat s :=
  decode_encode.2.2 36 (2 ^ 32 - 1) { mem := fun _ => 0, stores := [] } (by decide) (by decide)

/-! ## the buffer of printf -/

/-- The first `switch` of `printf`: what it stores into `buf`. -/
def printfBuffer (c : BitVec 8) (arg : BitVec 32) (buf : Buf) : Option Buf :=
  match Char.ofNat c.toNat with
  | 'b' => utoaBuf arg 2 buf
  | 'd' => itoaBuf arg 10 buf
  | 'u' => utoaBuf arg 10 buf
  | 'x' => utoaBuf arg 16 buf
  | 'X' => utoaBuf arg 16 buf
  | 'p' => utoaBuf arg 16 buf
  | _ => some buf

/-- The size of `buf`. -/
def printfBufSize : Nat := 32

/-- `for (size_t i = 0; buf[i]; ++i) buf[i] = toupper(buf[i])`. -/
def printfUpper : (fuel i : Nat) → Buf → Except Halt Buf
  | 0, _, _ => .error .outOfFuel
  | fuel + 1, i, buf =>
      if buf.mem i = 0 then .ok buf
      else printfUpper fuel (i + 1) (buf.store i (toupper (buf.mem i)))

theorem toupper_ne_zero (h : c ≠ 0) : toupper c ≠ 0 := by
  revert c
  decide

/-- The text before a place does not depend on what is stored behind. -/
theorem isCString_congr {mem mem' : Nat → BitVec 8} (hsame : ∀ i, p ≤ i → mem' i = mem i) :
    IsCString mem p s → IsCString mem' p s := by
  induction s generalizing p with
  | nil => exact fun h => (hsame p (Nat.le_refl p)).trans h
  | cons c s ih =>
      rintro ⟨hc, hne, hs⟩
      exact ⟨(hsame p (Nat.le_refl p)).trans hc, hne, ih (fun i hi => hsame i (by omega)) hs⟩

/-- **In place**, each character becomes upper case, and the string keeps its length. -/
theorem printfUpper_eq (h : IsCString buf.mem i s) (hfuel : s.length < fuel) :
    ∃ buf', printfUpper fuel i buf = .ok buf' ∧ IsCString buf'.mem i (s.map toupper) ∧
      ∀ j, j < i → buf'.mem j = buf.mem j := by
  induction s generalizing fuel i buf with
  | nil =>
      cases fuel with
      | zero => contradiction
      | succ fuel => exact ⟨buf, by rw [printfUpper, if_pos (show buf.mem i = 0 from h)], h, fun _ _ => rfl⟩
  | cons c s ih =>
      obtain ⟨hc, hne, hs⟩ := h
      cases fuel with
      | zero => contradiction
      | succ fuel =>
          have hrest : IsCString (buf.store i (toupper c)).mem (i + 1) s :=
            isCString_congr (fun j hj => if_neg (by omega)) hs
          obtain ⟨buf', hrun, hs', hframe⟩ := ih hrest (Nat.lt_of_succ_lt_succ hfuel)
          refine ⟨buf', by rw [printfUpper, hc, if_neg hne, hrun], ⟨?_, toupper_ne_zero hne, hs'⟩, ?_⟩
          · rw [hframe i (Nat.lt_succ_self i)]
            exact if_pos rfl
          · intro j hj
            rw [hframe j (by omega)]
            exact if_neg (by omega)

/-- In a fresh buffer, how far the stores of a text reach. -/
theorem Buf.Written.stores_lt_iff {m : ByteMem} (h : Written { mem := m, stores := [] } s b') :
    (∀ i ∈ b'.stores, i < n) ↔ s.length < n := by
  constructor
  · exact fun hall => hall s.length ((h.stores _).mpr (.inl (Nat.le_refl _)))
  · intro hlt i hi
    have hle : i ≤ s.length := by simpa using (h.stores i).mp hi
    omega

/-- **The buffer of printf** is large enough, except for a binary numeral of 32 digits. -/
theorem printfBuffer_stores (c : BitVec 8) (arg : BitVec 32) (mem : ByteMem) :
    (∃ buf, printfBuffer c arg { mem := mem, stores := [] } = some buf ∧
      ∀ i ∈ buf.stores, i < printfBufSize) ↔ ¬ (c = chr 'b' ∧ 2 ^ 31 ≤ arg.toNat) := by
  have hsmall : ∀ {c' : Char}, chr c' ≠ chr 'b' → Char.ofNat c.toNat = c' →
      ¬ (c = chr 'b' ∧ 2 ^ 31 ≤ arg.toNat) := by
    rintro c' hne hc ⟨hb, -⟩
    rw [← chr_ofNat_toNat c, hc] at hb
    exact hne hb
  have hlt := arg.isLt
  have hutoa : ∀ {base : Nat} {c' : Char}, chr c' ≠ chr 'b' → Char.ofNat c.toNat = c' →
      2 ≤ base → base ≤ 36 → arg.toNat < base ^ 31 →
      ((∃ buf, utoaBuf arg base { mem := mem, stores := [] } = some buf ∧
        ∀ i ∈ buf.stores, i < printfBufSize) ↔ ¬ (c = chr 'b' ∧ 2 ^ 31 ≤ arg.toNat)) := by
    intro base c' hne hc hlo hhi hpow
    obtain ⟨buf, hbuf, hwritten⟩ := utoaBuf_eq arg base { mem := mem, stores := [] }
    refine iff_of_true ⟨buf, hbuf, hwritten.stores_lt_iff.mpr ?_⟩ (hsmall hne hc)
    rw [utoa_eq hlo hhi]
    exact Nat.lt_succ_of_le ((length_numeral_le_iff hlo (by decide)).mpr hpow)
  rw [printfBuffer]
  split
  · next hc =>
      obtain ⟨buf, hbuf, hwritten⟩ := utoaBuf_eq arg 2 { mem := mem, stores := [] }
      have hb : c = chr 'b' := by rw [← chr_ofNat_toNat c, hc]
      have hlen := length_numeral_le_iff (n := arg.toNat) (show 2 ≤ 2 by decide) (show 0 < 31 by decide)
      rw [← utoa_eq (by decide) (by decide)] at hlen
      simp only [hbuf, Option.some.injEq, exists_eq_left', hwritten.stores_lt_iff, printfBufSize, hb,
        true_and]
      rw [Nat.lt_succ_iff, hlen, Nat.not_le]
  · next hc =>
      obtain ⟨buf, hbuf, hwritten⟩ := itoaBuf_eq arg 10 { mem := mem, stores := [] }
      refine iff_of_true ⟨buf, hbuf, hwritten.stores_lt_iff.mpr ?_⟩ (hsmall (by decide) hc)
      have hint := CType.has_int arg
      have hlen : (itoa arg.toInt 10).length ≤ 11 := length_itoa_le (by
        simp only [CType.Has, CType.int] at hint
        omega)
      exact Nat.lt_of_le_of_lt hlen (by decide)
  · next hc => exact hutoa (by decide) hc (by decide) (by decide) (by omega)
  · next hc => exact hutoa (by decide) hc (by decide) (by decide) (by omega)
  · next hc => exact hutoa (by decide) hc (by decide) (by decide) (by omega)
  · next hc => exact hutoa (by decide) hc (by decide) (by decide) (by omega)
  · next hne _ _ _ _ _ =>
      refine iff_of_true ⟨_, rfl, by simp⟩ fun h => hne ?_
      rw [h.1]
      rfl

/-- A `%b` of the number `2 ^ 31` overruns the buffer. -/
theorem printfBuffer_overrun : ¬ ∃ buf,
    printfBuffer (chr 'b') (2 ^ 31) { mem := fun _ => 0, stores := [] } = some buf ∧
      ∀ i ∈ buf.stores, i < printfBufSize := by
  rintro ⟨buf, hbuf, hall⟩
  obtain ⟨buf', hbuf', hwritten⟩ := utoaBuf_eq (2 ^ 31) 2 { mem := fun _ => 0, stores := [] }
  obtain rfl : buf' = buf := Option.some.inj (hbuf'.symm.trans hbuf)
  have hlen := hwritten.stores_lt_iff.mp hall
  rw [utoa_eq (by decide) (by decide)] at hlen
  have hlt := (length_numeral_le_iff (show 2 ≤ 2 by decide) (show 0 < 31 by decide)).mp
    (Nat.le_of_lt_succ hlen)
  exact absurd hlt (by decide)

end NimbleOS
