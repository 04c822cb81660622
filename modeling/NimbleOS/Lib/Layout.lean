/-!
# Layout

Breaking a text into rows of bounded width: the lines between the breaks, and each
line cut into chunks.  An empty line is one empty row, and a full row is followed by
another only if the line goes on.  `rows_snoc` says what one more character does to
the rows.
-/

namespace Layout

variable (brk : α → Bool) (w : Nat)

/-- The lines of a text; each character that is a break ends one. -/
def lines : List α → List (List α)
  | [] => [[]]
  | c :: text =>
      if brk c then [] :: lines text
      else
        match lines text with
        | [] => [[c]]
        | line :: rest => (c :: line) :: rest

/-- A line in pieces of `w` characters, the last one possibly shorter. -/
def chunks (line : List α) : List (List α) :=
  if 0 < w ∧ w < line.length then line.take w :: chunks (line.drop w) else [line]
termination_by line.length
decreasing_by
  rw [List.length_drop]
  omega

/-- The rows of a text. -/
def rows (text : List α) : List (List α) := (lines brk text).flatMap (chunks w)

/-! ## one more character -/

/-- There is always a last line. -/
theorem exists_last_line (text : List α) : ∃ init last, lines brk text = init ++ [last] := by
  induction text with
  | nil => exact ⟨[], [], rfl⟩
  | cons d text ih =>
      obtain ⟨init, last, htext⟩ := ih
      rw [lines, htext]
      cases brk d with
      | true => exact ⟨[] :: init, last, rfl⟩
      | false =>
          cases init with
          | nil => exact ⟨[], d :: last, rfl⟩
          | cons line init => exact ⟨(d :: line) :: init, last, rfl⟩

/-- A break opens a line. -/
theorem lines_snoc_break (hc : brk c = true) (text : List α) :
    lines brk (text ++ [c]) = lines brk text ++ [[]] := by
  induction text with
  | nil => simp [lines, hc]
  | cons d text ih =>
      obtain ⟨init, last, htext⟩ := exists_last_line brk text
      rw [List.cons_append, lines, ih, lines, htext]
      cases brk d with
      | true => rfl
      | false =>
          cases init with
          | nil => rfl
          | cons line init => rfl

/-- Another character goes to the end of the last line. -/
theorem lines_snoc (hc : brk c = false) (text : List α) :
    ∃ init last, lines brk text = init ++ [last] ∧
      lines brk (text ++ [c]) = init ++ [last ++ [c]] := by
  induction text with
  | nil => exact ⟨[], [], rfl, by simp [lines, hc]⟩
  | cons d text ih =>
      obtain ⟨init, last, htext, hsnoc⟩ := ih
      rw [List.cons_append, lines, lines, htext, hsnoc]
      cases hd : brk d with
      | true => exact ⟨[] :: init, last, rfl, rfl⟩
      | false =>
          cases init with
          | nil => exact ⟨[], d :: last, rfl, rfl⟩
          | cons line init => exact ⟨(d :: line) :: init, last, rfl, rfl⟩

theorem chunks_of_le {line : List α} (h : line.length ≤ w) : chunks w line = [line] := by
  rw [chunks, if_neg (by omega)]

/-- The last chunk takes one more character, or is full. -/
theorem chunks_snoc (hw : 0 < w) (line : List α) (c : α) :
    ∃ pre last, chunks w line = pre ++ [last] ∧ last.length ≤ w ∧
      chunks w (line ++ [c]) =
        if last.length < w then pre ++ [last ++ [c]] else pre ++ [last, [c]] := by
  induction line using chunks.induct w with
  | case1 line hlong ih =>
      obtain ⟨pre, last, hpre, hle, hsnoc⟩ := ih
      refine ⟨line.take w :: pre, last, by rw [chunks, if_pos hlong, hpre]; rfl, hle, ?_⟩
      have hlen : (line ++ [c]).length = line.length + 1 := by simp
      rw [chunks, if_pos ⟨hw, by omega⟩, List.take_append_of_le_length (by omega),
        List.drop_append_of_le_length (by omega), hsnoc]
      split <;> rfl
  | case2 line hshort =>
      have hle : line.length ≤ w := by omega
      refine ⟨[], line, chunks_of_le w hle, hle, ?_⟩
      by_cases hlt : line.length < w
      · have hfits : (line ++ [c]).length ≤ w := by
          rw [List.length_append]
          exact hlt
        rw [if_pos hlt, chunks_of_le w hfits]
        rfl
      · have hlen : line.length = w := by omega
        have hlong : w < (line ++ [c]).length := by simp [hlen]
        have hone : [c].length ≤ w := hw
        rw [if_neg hlt, chunks, if_pos ⟨hw, hlong⟩, ← hlen, List.take_left', List.drop_left',
          hlen, chunks_of_le w hone]
        · rfl
        · rfl
        · rfl

/-- **One more character**: a break opens an empty row; any other character goes to
the end of the last row, or opens a row if that one is full. -/
theorem rows_snoc (hw : 0 < w) (text : List α) (c : α) :
    ∃ pre last, rows brk w text = pre ++ [last] ∧ last.length ≤ w ∧
      rows brk w (text ++ [c]) =
        if brk c = true then pre ++ [last, []]
        else if last.length < w then pre ++ [last ++ [c]] else pre ++ [last, [c]] := by
  cases hc : brk c with
  | true =>
      obtain ⟨init, line, htext⟩ := exists_last_line brk text
      obtain ⟨pre, last, hchunks, hle, -⟩ := chunks_snoc w hw line c
      have hempty : chunks w ([] : List α) = [[]] := chunks_of_le w (Nat.zero_le _)
      refine ⟨init.flatMap (chunks w) ++ pre, last, ?_, hle, ?_⟩
      · simp [rows, htext, hchunks]
      · simp [rows, lines_snoc_break brk hc, htext, hchunks, hempty]
  | false =>
      obtain ⟨init, line, htext, hsnoc⟩ := lines_snoc brk hc text
      obtain ⟨pre, last, hchunks, hle, hchunks'⟩ := chunks_snoc w hw line c
      refine ⟨init.flatMap (chunks w) ++ pre, last, ?_, hle, ?_⟩
      · simp [rows, htext, hchunks]
      · simp only [rows, hsnoc, List.flatMap_append, List.flatMap_singleton, hchunks']
        split <;> simp

end Layout
