import NimbleOS.Lib.LastWrite
import NimbleOS.Tty.Arguments

/-!
# NimbleOS.Tty.Graphics

Graphics mode.  The colour byte holds a foreground, a background and a blink bit; the last
parameter that selects one of them should decide it.  Foreground and background behave so.
The blink bit does not: `term_set_bg_color` takes it for the top bit of the background
and clears it, so blinking is lost where a background comes after it.
-/

namespace NimbleOS

open LastWrite

/-! ## the colour byte -/

/-- `[ BLINK BG BG BG FG FG FG FG ]`. -/
def foreground (color : BitVec 8) : BitVec 8 := color &&& 0x0F

def background (color : BitVec 8) : BitVec 8 := color >>> 4 &&& 0x07

def blinking (color : BitVec 8) : Bool := color.getLsbD 7

/-- What the parameters 0 and 5 select. -/
def blinkParam (arg : Nat) : Option Bool :=
  if arg = 0 then some false else if arg = 5 then some true else none

/-- The low half of the byte is the foreground. -/
theorem foreground_makeColor (fg bg : BitVec 8) :
    foreground (termMakeColor fg bg) = foreground fg := by
  have hlow : bg <<< 4 &&& 0x0F = 0#8 := by
    revert bg
    decide
  rw [foreground, termMakeColor, BitVec.and_or_distrib_right, hlow, BitVec.or_zero, foreground]

/-- The high half holds the other two. -/
theorem makeColor_high {fg : BitVec 8} (h : fg >>> 4 = 0#8) (bg : BitVec 8) :
    termMakeColor fg bg >>> 4 = foreground bg := by
  rw [termMakeColor, BitVec.ushiftRight_or_distrib, h, BitVec.zero_or]
  revert bg
  decide

theorem blinking_eq (c : BitVec 8) : blinking c = (c >>> 4).getLsbD 3 := by
  rw [BitVec.getLsbD_ushiftRight, blinking]

theorem TermVgaColor.val_high (color : TermVgaColor) : color.val >>> 4 = 0#8 := by
  cases color <;> rfl

theorem TermVgaColor.foreground_val (color : TermVgaColor) : foreground color.val = color.val := by
  cases color <;> rfl

theorem fields_setFg (c : BitVec 8) (color : TermVgaColor) :
    foreground (termMakeColor color.val (c >>> 4)) = color.val ∧
      background (termMakeColor color.val (c >>> 4)) = background c ∧
      blinking (termMakeColor color.val (c >>> 4)) = blinking c := by
  have hhigh : termMakeColor color.val (c >>> 4) >>> 4 = c >>> 4 := by
    rw [makeColor_high color.val_high]
    revert c
    decide
  refine ⟨?_, ?_, ?_⟩
  · rw [foreground_makeColor, color.foreground_val]
  · rw [background, hhigh, background]
  · rw [blinking_eq, hhigh, blinking_eq]

/-- A background is one of the eight colours of three bits. -/
theorem fields_setBg (c : BitVec 8) (h : ansiBgColor arg = some color) :
    foreground (termMakeColor (c &&& 0x0F) color.val) = foreground c ∧
      background (termMakeColor (c &&& 0x0F) color.val) = color.val ∧
      blinking (termMakeColor (c &&& 0x0F) color.val) = false := by
  have hlow : (c &&& 0x0F) >>> 4 = 0#8 := by
    revert c
    decide
  have hhigh := makeColor_high hlow color.val
  refine ⟨?_, ?_, ?_⟩
  · rw [foreground_makeColor, foreground, BitVec.and_assoc, BitVec.and_self, foreground]
  · rw [background, hhigh]
    unfold ansiBgColor at h
    split at h <;> cases h <;> rfl
  · rw [blinking_eq, hhigh]
    unfold ansiBgColor at h
    split at h <;> cases h <;> rfl

theorem fields_setBlink (c : BitVec 8) :
    (foreground (c ||| 0x80) = foreground c ∧ background (c ||| 0x80) = background c ∧
      blinking (c ||| 0x80) = true) ∧
    (foreground (c &&& ~~~0x80) = foreground c ∧ background (c &&& ~~~0x80) = background c ∧
      blinking (c &&& ~~~0x80) = false) := by
  revert c
  decide

/-- A parameter selects one of the three, or nothing. -/
theorem blinkParam_of_fg (h : ansiFgColor arg = some color) :
    blinkParam arg = none ∧ ansiBgColor arg = none := by
  unfold ansiFgColor at h
  split at h <;> cases h <;> exact ⟨rfl, rfl⟩

theorem blinkParam_of_bg (h : ansiBgColor arg = some color) : blinkParam arg = none := by
  unfold ansiBgColor at h
  split at h <;> cases h <;> rfl

/-- **One parameter** of `m`: the foreground and the background are what it selects, or as
before; the blink bit too, but a background clears it. -/
theorem ansiGraphic_fields (t : Term) (arg : Nat) :
    foreground (ansiGraphic t arg).color =
        ((ansiFgColor arg).map TermVgaColor.val).getD (foreground t.color) ∧
      background (ansiGraphic t arg).color =
        ((ansiBgColor arg).map TermVgaColor.val).getD (background t.color) ∧
      blinking (ansiGraphic t arg).color =
        (blinkParam arg).getD (if (ansiBgColor arg).isSome then false else blinking t.color) := by
  unfold ansiGraphic
  cases hfg : ansiFgColor arg with
  | some color =>
      obtain ⟨hblink, hbg⟩ := blinkParam_of_fg hfg
      rw [hblink, hbg]
      exact fields_setFg t.color color
  | none =>
      cases hbg : ansiBgColor arg with
      | some color =>
          rw [blinkParam_of_bg hbg]
          exact fields_setBg t.color hbg
      | none =>
          dsimp only
          unfold blinkParam termSetBlink
          obtain ⟨hon, hoff⟩ := fields_setBlink t.color
          split
          · exact hoff
          · split
            · exact hon
            · exact ⟨rfl, rfl, rfl⟩

/-! ## lists of parameters -/

/-- Each of the three is what the last parameter that selects it says, or as before. -/
structure SelectsEach (args : List Nat) (color color' : BitVec 8) : Prop where
  foreground : foreground color' =
    ((last ansiFgColor args).map TermVgaColor.val).getD (foreground color)
  background : background color' =
    ((last ansiBgColor args).map TermVgaColor.val).getD (background color)
  blinking : blinking color' = (last blinkParam args).getD (blinking color)

/-- The parameters 40 to 47 are those that select a background. -/
theorem ansiBgColor_isSome_iff : (ansiBgColor arg).isSome = true ↔ 40 ≤ arg ∧ arg ≤ 47 := by
  unfold ansiBgColor
  constructor
  · intro h
    split at h
    case h_9 => cases h
    all_goals omega
  · rintro ⟨hlow, hhigh⟩
    have hcases : arg = 40 ∨ arg = 41 ∨ arg = 42 ∨ arg = 43 ∨ arg = 44 ∨ arg = 45 ∨ arg = 46 ∨
        arg = 47 := by omega
    obtain rfl | rfl | rfl | rfl | rfl | rfl | rfl | rfl := hcases <;> rfl

/-- **Parameters of graphics mode**, from a colour that does not blink: each attribute is
as selected exactly if no background comes after a 5 that is the last of the 0s and 5s. -/
theorem selectsEach_iff (t : Term) (h : blinking t.color = false) (args : List Nat) :
    SelectsEach args t.color (args.foldl ansiGraphic t).color ↔
      Kept blinkParam (fun arg => 40 ≤ arg ∧ arg ≤ 47) args := by
  have hfg := foldl_field (fun t : Term => foreground t.color)
    (fun t arg => (ansiGraphic_fields t arg).1) args t
  have hbg := foldl_field (fun t : Term => background t.color)
    (fun t arg => (ansiGraphic_fields t arg).2.1) args t
  have hblink := foldl_cleared_iff ansiGraphic (fun t : Term => blinking t.color) blinkParam
    (fun arg => 40 ≤ arg ∧ arg ≤ 47)
    (fun t arg b hb => by rw [(ansiGraphic_fields t arg).2.2, hb]; rfl)
    (fun t arg hnone hclear => by
      rw [(ansiGraphic_fields t arg).2.2, hnone, if_pos (ansiBgColor_isSome_iff.mpr hclear)]
      rfl)
    (fun t arg hnone hclear => by
      rw [(ansiGraphic_fields t arg).2.2, hnone,
        if_neg fun hsome => hclear (ansiBgColor_isSome_iff.mp hsome)]
      rfl)
    h args
  rw [last_map] at hfg hbg
  rw [← hblink]
  exact ⟨fun hsel => hsel.blinking.trans (by rw [h]), fun heq => ⟨hfg, hbg, heq.trans (by rw [h])⟩⟩

/-! ## sequences that are taken whole -/

/-- The parameters of one sequence fit in the interpreter's two arrays. -/
def FitsBuffers (params : List (List (BitVec 8))) : Prop :=
  params.length ≤ 32 ∧ ∀ ds ∈ params, ds.length ≤ 31

theorem IsEnd.ne_escape (h : IsEnd c) : c ≠ chr '\x1B' := by
  cases h with
  | inl hsep =>
      rw [hsep]
      decide
  | inr halpha => exact ne_of_class halpha (by decide)

/-- The end of a parameter needs an element of either array. -/
theorem Collecting.end_room (h : Collecting ctx₀ ctx vs ds) (hc : IsEnd c)
    (hans : ansiInterpretChar ctx t c = .ok r) :
    ds.length < ansiBufferSize ∧ vs.length < ansiBufferSize := by
  by_contra hfull
  rw [← h.index, ← h.arg] at hfull
  cases hc with
  | inl hsep =>
      rw [ansiInterpretChar_separator h.state hsep, ansiEndParam_error hfull] at hans
      cases hans
  | inr halpha =>
      rw [ansiInterpretChar_letter h.state halpha, ansiEndParam_error hfull] at hans
      cases hans

/-- Outside of a sequence a character other than ESC is not taken. -/
theorem ansiFeed_normal_cons (hs : ctx.state = .normal) (hc : c ≠ chr '\x1B')
    (text : List (BitVec 8)) : ansiFeed ctx t (c :: text) ≠ .ok (true, ctx', t') := by
  intro h
  simp only [ansiFeed, ansiInterpretChar_of_normal hs hc, bind, Except.bind] at h
  cases hrest : ansiFeed ctx t text with
  | error e =>
      rw [hrest] at h
      cases h
  | ok r =>
      rw [hrest] at h
      cases h

/-- A parameter that is taken whole has room. -/
theorem Collecting.digits_room (h : Collecting ctx₀ ctx vs ds) (hlen : ds.length ≤ ansiBufferSize)
    (hd : ∀ d ∈ more, isdigit d.toInt = true) (hc : IsEnd c)
    (hfeed : ansiFeed ctx t (more ++ c :: text) = .ok (true, ctx', t')) :
    (ds ++ more).length < ansiBufferSize ∧ vs.length < ansiBufferSize := by
  induction more generalizing ctx ds with
  | nil =>
      rw [List.nil_append, ansiFeed] at hfeed
      obtain ⟨r, hans, -⟩ := bind_eq_ok.mp hfeed
      rw [List.append_nil]
      exact h.end_room hc hans
  | cons d more ih =>
      obtain ⟨hdigit, hmore⟩ := List.forall_mem_cons.mp hd
      by_cases hroom : ds.length < ansiBufferSize
      · obtain ⟨ctx₁, hans, h₁⟩ := h.digit hdigit hroom t
        rw [List.cons_append, ansiFeed_cons hans] at hfeed
        rw [List.append_cons]
        refine ih h₁ ?_ hmore hfeed
        rw [List.length_append, List.length_singleton]
        exact hroom
      · -- the digit is one too many: the sequence is given up, what follows is text
        have hfull : ctx.currentIndex ≥ ansiBufferSize := by
          rw [h.index]
          omega
        have hans := ansiInterpretChar_overflow h.state hdigit hfull t
        rw [List.cons_append, ansiFeed_cons hans] at hfeed
        exfalso
        cases more with
        | nil => exact ansiFeed_normal_cons rfl hc.ne_escape _ hfeed
        | cons d' more =>
            exact ansiFeed_normal_cons rfl (ne_of_class (hmore d' List.mem_cons_self) (by decide)) _
              hfeed

/-- The parameters of a sequence that is taken whole have room. -/
theorem Collecting.params_room (h : Collecting ctx₀ ctx vs [])
    (hd : ∀ ds ∈ init ++ [ending], ∀ d ∈ ds, isdigit d.toInt = true) (hc : isalpha c.toInt = true)
    (hfeed : ansiFeed ctx t ([chr ';'].intercalate (init ++ [ending]) ++ c :: text) =
      .ok (true, ctx', t')) :
    (∀ ds ∈ init ++ [ending], IsParam ds) ∧ vs.length + init.length < ansiBufferSize := by
  induction init generalizing ctx vs with
  | nil =>
      have hlast : ∀ d ∈ ending, isdigit d.toInt = true := hd ending (by simp)
      rw [List.nil_append, List.intercalate_singleton] at hfeed
      obtain ⟨hdigits, hvalues⟩ := h.digits_room (Nat.zero_le _) hlast (.inr hc) hfeed
      refine ⟨fun ds hds => ?_, hvalues⟩
      obtain rfl : ds = ending := by simpa using hds
      exact ⟨hlast, hdigits⟩
  | cons ds init ih =>
      obtain ⟨hds, hinit⟩ := List.forall_mem_cons.mp hd
      rw [List.cons_append, List.intercalate_cons_of_ne_nil (by simp), List.append_assoc,
        List.append_assoc, List.singleton_append] at hfeed
      obtain ⟨hdigits, hvalues⟩ := h.digits_room (Nat.zero_le _) hds (.inl rfl) hfeed
      have hparam : IsParam ds := ⟨hds, hdigits⟩
      obtain ⟨ctx₁, hfeed₁, h₁⟩ := h.digits (show IsParam ([] ++ ds) from hparam) t
      obtain ⟨ctx₂, hfeed₂, h₂⟩ := h₁.separator hparam hvalues t
      rw [ansiFeed_append hfeed₁, ansiFeed_cons hfeed₂] at hfeed
      obtain ⟨hall, hroom⟩ := ih h₂ hinit hfeed
      refine ⟨?_, ?_⟩
      · rw [List.cons_append]
        exact List.forall_mem_cons.mpr ⟨hparam, hall⟩
      · rw [List.length_append, List.length_singleton] at hroom
        rw [List.length_cons]
        omega

/-! ## sequences of graphics mode -/

/-- Texts of digits, at least one: `ESC [ m` has one empty parameter. -/
structure IsParams (params : List (List (BitVec 8))) : Prop where
  ne_nil : params ≠ []
  digits : ∀ ds ∈ params, ∀ c ∈ ds, isdigit c.toInt = true

def graphicSequences (seqs : List (List (List (BitVec 8)))) : List (BitVec 8) :=
  seqs.flatMap (escapeSequence · (chr 'm'))

theorem FitsBuffers.room {params : List (List (BitVec 8))} (hne : params ≠ [])
    (h : FitsBuffers params) : params.dropLast.length < ansiBufferSize := by
  have hpos := List.length_pos_iff.mpr hne
  obtain ⟨hlen, -⟩ := h
  rw [List.length_dropLast]
  unfold ansiBufferSize
  omega

/-- One sequence that fits applies its parameters in order. -/
theorem ansiFeed_graphics_one {ctx : AnsiContext} (h : ctx.Idle) (hp : IsParams params)
    (hfits : FitsBuffers params) (t : Term) :
    ∃ ctx', ctx'.Idle ∧ ansiFeed ctx t (escapeSequence params (chr 'm')) =
      .ok (true, ctx', (params.map paramValue).foldl ansiGraphic t) := by
  have hsplit := List.dropLast_concat_getLast hp.ne_nil
  have hisparam : ∀ ds ∈ params, IsParam ds := fun ds hds =>
    ⟨hp.digits ds hds, Nat.lt_succ_of_le (hfits.2 ds hds)⟩
  obtain ⟨d, hargs, harg, -, -, hfeed⟩ :=
    ansiFeed_sequence (c := chr 'm') h (by rwa [hsplit]) (hfits.room hp.ne_nil) (by decide) t
  rw [hsplit] at hargs harg hfeed
  have htake : d.args.toList.take params.length = params.map paramValue := by
    rw [hargs]
    exact List.take_left' (List.length_map _)
  have hcommand : (ansiCommand d t (chr 'm')).2 = (params.map paramValue).foldl ansiGraphic t := by
    change (d.args.toList.take d.currentArg).foldl ansiGraphic t = _
    rw [harg, htake]
  rw [hcommand] at hfeed
  exact ⟨_, ⟨rfl, rfl, rfl⟩, hfeed⟩

/-- One that is taken whole fits. -/
theorem fitsBuffers_of_feed {ctx : AnsiContext} (h : ctx.Idle) (hp : IsParams params)
    (hfeed : ansiFeed ctx t (escapeSequence params (chr 'm') ++ text) = .ok (true, ctx', t')) :
    FitsBuffers params := by
  have hsplit := List.dropLast_concat_getLast hp.ne_nil
  obtain ⟨ctx₁, hopen, h₁⟩ := ansiFeed_open h t
  have hshape : escapeSequence params (chr 'm') ++ text = [chr '\x1B', chr '['] ++
      ([chr ';'].intercalate (params.dropLast ++ [params.getLast hp.ne_nil]) ++ chr 'm' :: text) := by
    rw [hsplit, escapeSequence, List.cons_append, List.cons_append, List.append_assoc]
    rfl
  rw [hshape, ansiFeed_append hopen] at hfeed
  obtain ⟨hall, hroom⟩ :=
    h₁.params_room (by rw [hsplit]; exact hp.digits) (by decide) hfeed
  rw [hsplit] at hall
  refine ⟨?_, fun ds hds => Nat.le_of_lt_succ (hall ds hds).room⟩
  rw [List.length_nil, List.length_dropLast] at hroom
  unfold ansiBufferSize at hroom
  omega

/-- **Run lemma**: sequences that fit apply all their parameters in order. -/
theorem ansiFeed_graphics {ctx : AnsiContext} (h : ctx.Idle) (hp : ∀ params ∈ seqs, IsParams params)
    (hfits : ∀ params ∈ seqs, FitsBuffers params) (t : Term) :
    ∃ ctx', ctx'.Idle ∧ ansiFeed ctx t (graphicSequences seqs) =
      .ok (true, ctx', (seqs.flatten.map paramValue).foldl ansiGraphic t) := by
  induction seqs generalizing ctx t with
  | nil => exact ⟨ctx, h, rfl⟩
  | cons params seqs ih =>
      obtain ⟨hone, hrest⟩ := List.forall_mem_cons.mp hp
      obtain ⟨hfit, hfits⟩ := List.forall_mem_cons.mp hfits
      obtain ⟨ctx₁, h₁, hfeed₁⟩ := ansiFeed_graphics_one h hone hfit t
      obtain ⟨ctx', h', hfeed'⟩ := ih h₁ hrest hfits _
      refine ⟨ctx', h', ?_⟩
      rw [graphicSequences, List.flatMap_cons, ansiFeed_append hfeed₁, ← graphicSequences, hfeed',
        List.flatten_cons, List.map_append, List.foldl_append]

/-- Sequences that are taken whole fit. -/
theorem fitsBuffers_of_graphics {ctx : AnsiContext} (h : ctx.Idle)
    (hp : ∀ params ∈ seqs, IsParams params)
    (hfeed : ansiFeed ctx t (graphicSequences seqs) = .ok (true, ctx', t')) :
    ∀ params ∈ seqs, FitsBuffers params := by
  induction seqs generalizing ctx t with
  | nil => simp
  | cons params seqs ih =>
      obtain ⟨hone, hrest⟩ := List.forall_mem_cons.mp hp
      rw [graphicSequences, List.flatMap_cons] at hfeed
      have hfit := fitsBuffers_of_feed h hone hfeed
      obtain ⟨ctx₁, h₁, hfeed₁⟩ := ansiFeed_graphics_one h hone hfit t
      rw [ansiFeed_append hfeed₁] at hfeed
      exact List.forall_mem_cons.mpr ⟨hfit, ih h₁ hrest hfeed⟩

/-- A background of three bits does not blink. -/
theorem blinking_of_bg {t : Term} (h : (termGetBgColor t).toNat < 8) : blinking t.color = false := by
  have hcolor : ∀ c : BitVec 8, (c >>> 4).toNat < 8 → blinking c = false := by decide
  exact hcolor t.color h

/-- **The attributes are independent** of each other, from a background that does not
blink, exactly if every sequence fits in the interpreter's arrays and no background comes
after a 5 that is the last of the parameters 0 and 5. -/
theorem graphics_select_iff {ctx : AnsiContext} (h : ctx.Idle) (t : Term)
    (hbg : (termGetBgColor t).toNat < 8) (seqs : List (List (List (BitVec 8))))
    (hp : ∀ params ∈ seqs, IsParams params) :
    (∃ ctx' t', ansiFeed ctx t (graphicSequences seqs) = .ok (true, ctx', t') ∧
        SelectsEach (seqs.flatten.map paramValue) t.color t'.color) ↔
      (∀ params ∈ seqs, FitsBuffers params) ∧
        Kept blinkParam (fun arg => 40 ≤ arg ∧ arg ≤ 47) (seqs.flatten.map paramValue) := by
  rw [← selectsEach_iff t (blinking_of_bg hbg)]
  constructor
  · rintro ⟨ctx', t', hfeed, hsel⟩
    have hfits := fitsBuffers_of_graphics h hp hfeed
    obtain ⟨ctx'', -, hfeed'⟩ := ansiFeed_graphics h hp hfits t
    rw [hfeed'] at hfeed
    obtain ⟨-, -, rfl⟩ : true = true ∧ _ ∧ _ = t' := by
      simpa only [Except.ok.injEq, Prod.mk.injEq] using hfeed
    exact ⟨hfits, hsel⟩
  · rintro ⟨hfits, hsel⟩
    obtain ⟨ctx', -, hfeed⟩ := ansiFeed_graphics h hp hfits t
    exact ⟨ctx', _, hfeed, hsel⟩

/-- White on black, nothing shown. -/
def Term.blank : Term := { buffer := vgaMemory, row := 0, column := 0, color := 0x0F, memory := fun _ => 0 }

/-- Red on green, then blinking. -/
def blinkLast : List (List (List (BitVec 8))) :=
  [[[chr '3', chr '1'], [chr '4', chr '2']], [[chr '5']]]

theorem isParams_blinkLast : ∀ params ∈ blinkLast, IsParams params := by
  intro params hmem
  simp only [blinkLast, List.mem_cons, List.not_mem_nil, or_false] at hmem
  rcases hmem with rfl | rfl <;> exact ⟨by decide, by decide⟩

theorem graphics_select_iff_blink_last :
    ∃ ctx' t', ansiFeed .zeroed .blank (graphicSequences blinkLast) = .ok (true, ctx', t') ∧
      SelectsEach (blinkLast.flatten.map paramValue) Term.blank.color t'.color := by
  have hkept := (selectsEach_iff .blank (by decide) (blinkLast.flatten.map paramValue)).mp
    ⟨by decide, by decide, by decide⟩
  have hidle : AnsiContext.zeroed.Idle := ⟨rfl, rfl, rfl⟩
  refine (graphics_select_iff hidle .blank (by decide) blinkLast
    isParams_blinkLast).mpr ⟨fun params hmem => ?_, hkept⟩
  simp only [blinkLast, List.mem_cons, List.not_mem_nil, or_false] at hmem
  rcases hmem with rfl | rfl <;> exact ⟨by decide, by decide⟩

/-- Blinking, then on red: `ESC [ 5 ; 4 1 m`. -/
def blinkFirst : List (List (List (BitVec 8))) := [[[chr '5'], [chr '4', chr '1']]]

/-- The background takes the blinking away. -/
theorem graphics_background_stops_blinking :
    ¬ (∃ ctx' t', ansiFeed .zeroed .blank (graphicSequences blinkFirst) = .ok (true, ctx', t') ∧
        SelectsEach (blinkFirst.flatten.map paramValue) Term.blank.color t'.color) ∧
      ∃ ctx' t', ansiFeed .zeroed .blank (graphicSequences blinkFirst) = .ok (true, ctx', t') ∧
        blinking t'.color = false := by
  have hp : ∀ params ∈ blinkFirst, IsParams params := by
    intro params hmem
    obtain rfl : params = _ := by simpa only [blinkFirst, List.mem_singleton] using hmem
    exact ⟨by decide, by decide⟩
  have hfits : ∀ params ∈ blinkFirst, FitsBuffers params := by
    intro params hmem
    obtain rfl : params = _ := by simpa only [blinkFirst, List.mem_singleton] using hmem
    exact ⟨by decide, by decide⟩
  have hidle : AnsiContext.zeroed.Idle := ⟨rfl, rfl, rfl⟩
  obtain ⟨ctx', -, hfeed⟩ :=
    ansiFeed_graphics hidle hp hfits Term.blank
  refine ⟨?_, ctx', _, hfeed, by decide⟩
  rintro ⟨ctx'', t', hfeed', hsel⟩
  rw [hfeed] at hfeed'
  obtain ⟨-, -, rfl⟩ : true = true ∧ _ ∧ _ = t' := by
    simpa only [Except.ok.injEq, Prod.mk.injEq] using hfeed'
  have hblink := hsel.blinking
  revert hblink
  decide

end NimbleOS
