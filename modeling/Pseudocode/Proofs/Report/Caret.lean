import Pseudocode.Proofs.Lexical.LongestMatch
import Pseudocode.Proofs.Lexical.Positions
import Pseudocode.Report
import Mathlib.Algebra.Group.Nat.Defs

/-!
# Where the caret of a report stands

A report that points into its source ends with two rows: the offending line behind the number of
its row, and a caret. The number is padded to four places, and the row of the caret begins with
as many blanks. So the caret stands under the column of the failure as long as four places are
enough for the number. From row 10000 on it stands too far to the left, by one character for each
place beyond the fourth.
-/
namespace Pseudocode

open Text (Colour)

/-- A line has no newline in it. -/
theorem Text.newline_not_mem_lines {text line : List Char} (h : line ∈ lines text) :
    '\n' ∉ line := by
  fun_induction lines text generalizing line with
  | case1 => cases h
  | case2 rest ih =>
      rcases List.mem_cons.1 h with rfl | h
      · simp
      · exact ih h
  | case3 rest ih =>
      rcases List.mem_cons.1 h with rfl | h
      · simp
      · exact ih h
  | case4 c rest hnewline hreturn hlines ih =>
      obtain rfl := List.mem_singleton.1 h
      have hc : '\n' ≠ c := fun hc => hnewline hc.symm
      simpa using hc
  | case5 c rest hnewline hreturn first later hlines ih =>
      rw [hlines] at ih
      have hc : '\n' ≠ c := fun hc => hnewline hc.symm
      rcases List.mem_cons.1 h with rfl | h
      · simpa [hc] using ih List.mem_cons_self
      · exact ih (List.mem_cons_of_mem _ h)

/-- Newlines at the front of a text are empty lines. -/
theorem Text.lines_newlines_append (n : Nat) (text : List Char) :
    lines (List.replicate n '\n' ++ text) = List.replicate n [] ++ lines text := by
  induction n with
  | zero => rfl
  | succ n ih =>
      rw [List.replicate_succ, List.cons_append, lines, ih]
      rfl

/-- A number has at most `k` digits if it lies below `10 ^ k`. -/
theorem length_digits_le_iff (n : Nat) {k : Nat} (hk : 0 < k) :
    (Number.digits n).length ≤ k ↔ n < 10 ^ k := by
  induction n using Number.digits.induct generalizing k with
  | case1 n hn =>
      have hpow : 10 ^ 1 ≤ 10 ^ k := Nat.pow_le_pow_right (by decide) hk
      rw [Number.digits, if_pos hn, List.length_singleton]
      omega
  | case2 n hn ih =>
      obtain ⟨k, rfl⟩ := Nat.exists_eq_add_one.2 hk
      rw [Number.digits, if_neg hn, List.length_append, List.length_singleton]
      rcases Nat.eq_zero_or_pos k with rfl | hpos
      · have hne := List.length_pos_iff.2 (Number.digits_ne_nil (n / 10))
        omega
      · have hten : n / 10 < 10 ^ k ↔ n < 10 ^ k * 10 := Nat.div_lt_iff_lt_mul (by decide)
        rw [Nat.add_le_add_iff_right, ih hpos, hten, Nat.pow_succ]

/-- The row of the caret, without its colours. -/
theorem Report.plain_caretLine (col : Nat) :
    Text.plain (caretLine Colour.paint col) =
      Text.spaces 5 ++ ['|', ' '] ++ Text.spaces (col - 1) ++ ['^'] := by
  have hcaret : Text.plain (Colour.boldRed.paint ['^']) = ['^'] :=
    calc Text.plain (Colour.boldRed.paint ['^'])
        = Text.plain (Colour.boldRed.paint ['^'] ++ []) := by rw [List.append_nil]
      _ = Text.plain ['^'] ++ Text.plain [] := Text.plain_paint_append .boldRed ['^'] []
      _ = ['^'] := by decide
  rw [caretLine, Text.plain_append_of_forall, hcaret]
  intro c hc
  simp only [Text.spaces, List.mem_append, List.mem_replicate, List.mem_cons, List.not_mem_nil,
    or_false] at hc
  rcases hc with (⟨-, rfl⟩ | rfl | rfl) | ⟨-, rfl⟩ <;> decide

/-- The last two rows of a text show a line, `width` characters from the left, and a caret,
`offset` characters from the left if colours do not count. -/
def PointsInto (text line : List Char) (width offset : Nat) : Prop :=
  ∃ rows gutter below indent, text.splitOn '\n' = rows ++ [gutter ++ line, below] ∧
    gutter.length = width ∧ Text.plain below = indent ++ ['^'] ∧ '^' ∉ indent ∧
    indent.length = offset

/-- A text points into a line in one way only. -/
theorem PointsInto.unique {text line : List Char} {width offset width' offset' : Nat}
    (h : PointsInto text line width offset) (h' : PointsInto text line width' offset') :
    width = width' ∧ offset = offset' := by
  obtain ⟨rows, gutter, below, indent, hrows, rfl, hplain, -, rfl⟩ := h
  obtain ⟨rows', gutter', below', indent', hrows', rfl, hplain', -, rfl⟩ := h'
  obtain ⟨-, hlast⟩ := List.append_inj' (hrows.symm.trans hrows') rfl
  obtain ⟨habove, hbelow⟩ := List.cons.inj hlast
  obtain rfl := (List.cons.inj hbelow).1
  rw [List.append_cancel_right habove, List.append_cancel_right (hplain.symm.trans hplain')]
  exact ⟨rfl, rfl⟩

/-- A line of the source stays one line behind the number of its row. -/
theorem Report.newline_not_mem_sourceLine (row : Nat) {line : List Char} (h : '\n' ∉ line) :
    '\n' ∉ sourceLine row line := by
  have hdigits : '\n' ∉ Number.digits row := by
    intro hmem
    exact absurd (Number.isDigit_of_mem_digits hmem) (by decide)
  simp [sourceLine, Text.padLeft, Text.spaces, hdigits, h]

theorem Report.newline_not_mem_caretLine (col : Nat) : '\n' ∉ caretLine Colour.paint col := by
  have hcaret : '\n' ∉ Colour.boldRed.paint ['^'] := by decide
  simp [caretLine, Text.spaces, hcaret]

/-- Two rows at the end of a text are the last two of its rows. -/
theorem splitOn_append_rows (front : List Char) {above below : List Char} (habove : '\n' ∉ above)
    (hbelow : '\n' ∉ below) :
    (front ++ '\n' :: (above ++ '\n' :: below)).splitOn '\n' =
      front.splitOn '\n' ++ [above, below] := by
  have hrow {row : List Char} (h : '\n' ∉ row) : ∀ c ∈ row, (c == '\n') = false := by
    intro c hc
    rw [beq_eq_false_iff_ne]
    rintro rfl
    exact h hc
  simp only [List.splitOn_eq_splitOnP]
  rw [List.splitOnP_append_cons _ _ (by decide),
    List.splitOnP_append_cons_of_forall_mem (hrow habove) _ (by decide),
    List.splitOnP_eq_singleton (hrow hbelow)]

/-- The last two rows of a report show the offending line behind its number, which takes at least
four places, and the caret in its column behind seven characters. -/
theorem pointsInto_report {f : Failure} {pos : Position} {source : String} {line : List Char}
    (hpos : f.position? = some pos)
    (hline : (Text.lines source.toList)[pos.row - 1]? = some line) :
    PointsInto (f.report source).toList line (max 4 (Number.digits pos.row).length + 3)
      (7 + (pos.col - 1)) := by
  have hnewline := Text.newline_not_mem_lines (List.mem_of_getElem? hline)
  have hreport : (f.report source).toList = Colour.red.paint f.message.toList ++ '\n' ::
      (Report.sourceLine pos.row line ++ '\n' :: Report.caretLine Colour.paint pos.col) := by
    simp [Failure.report, Failure.reportWith, hpos, Report.excerpt, hline]
  refine ⟨(Colour.red.paint f.message.toList).splitOn '\n',
    Text.padLeft 4 (Number.digits pos.row) ++ [' ', '|', ' '],
    Report.caretLine Colour.paint pos.col,
    Text.spaces 5 ++ ['|', ' '] ++ Text.spaces (pos.col - 1), ?_, ?_,
    Report.plain_caretLine pos.col, ?_, ?_⟩
  · rw [hreport]
    exact splitOn_append_rows _ (Report.newline_not_mem_sourceLine _ hnewline)
      (Report.newline_not_mem_caretLine _)
  · simp [Text.length_padLeft]
  · simp [Text.spaces]
  · simp only [List.length_append, Text.length_spaces, List.length_cons, List.length_nil]

/-- **The caret stands under the column exactly if the row has at most four digits.** For every
failure with a place in its source, both rows are shown; the column begins `width` characters from
the left, and the caret falls short of it by as many characters as the number of the row has
digits beyond the fourth. -/
theorem caret_under_column_iff {f : Failure} {pos : Position} {source : String} {line : List Char}
    (hpos : f.position? = some pos)
    (hline : (Text.lines source.toList)[pos.row - 1]? = some line) :
    ∃ width offset, PointsInto (f.report source).toList line width offset ∧
      offset + ((Number.digits pos.row).length - 4) = width + (pos.col - 1) ∧
      (offset = width + (pos.col - 1) ↔ pos.row < 10000) := by
  have hfour : (Number.digits pos.row).length ≤ 4 ↔ pos.row < 10000 :=
    length_digits_le_iff pos.row (by decide)
  refine ⟨_, _, pointsInto_report hpos hline, ?_, ?_⟩
  · omega
  · rw [← hfour]
    omega

/-- A source with a dollar sign in the third column of its second row. -/
def dollarSource : String := "x gets 1;\ny $ 2;\n"

/-- In a low row the caret stands under its column. -/
theorem dollarSource_caret :
    tokenize dollarSource = .error ⟨.unexpectedCharacter '$', ⟨2, 3⟩⟩ ∧
    ∃ width offset,
      PointsInto (Failure.report (.lexical ⟨.unexpectedCharacter '$', ⟨2, 3⟩⟩)
        dollarSource).toList "y $ 2;".toList width offset ∧
      offset + ((Number.digits 2).length - 4) = width + (3 - 1) ∧
      (offset = width + (3 - 1) ↔ 2 < 10000) := by
  have hline : (Text.lines dollarSource.toList)[2 - 1]? = some "y $ 2;".toList := by decide +kernel
  refine ⟨by decide +kernel, ?_⟩
  exact caret_under_column_iff (f := .lexical ⟨.unexpectedCharacter '$', ⟨2, 3⟩⟩) rfl hline

/-- A dollar sign behind a number of newlines. -/
def lowDollarSource (n : Nat) : String := String.ofList (List.replicate n '\n' ++ ['$'])

/-- What is wrong with a dollar sign behind a number of newlines. -/
def lowDollarError (n : Nat) : LexError := ⟨.unexpectedCharacter '$', ⟨n + 1, 1⟩⟩

theorem after_newlines (n : Nat) :
    Position.start.after (List.replicate n '\n') = ⟨n + 1, 1⟩ := by
  induction n with
  | zero => rfl
  | succ n ih =>
      rw [List.replicate_succ', Position.after_append, ih]
      rfl

theorem tokenize_lowDollarSource (n : Nat) :
    tokenize (lowDollarSource n) = .error (lowDollarError n) := by
  have hblank : Trivia ['$'] (List.replicate n '\n') := by
    induction n with
    | zero => exact .nil
    | succ n ih => exact .blank (by decide) ih
  have htokens := tokenize_trivia hblank .start
  rw [after_newlines] at htokens
  rw [tokenize, Cursor.ofSource, lowDollarSource, String.toList_ofList, htokens]
  exact Cursor.tokenize_error (by decide)

theorem lines_lowDollarSource (n : Nat) :
    (Text.lines (lowDollarSource n).toList)[n]? = some ['$'] := by
  rw [lowDollarSource, String.toList_ofList, Text.lines_newlines_append,
    List.getElem?_append_right (by simp)]
  simp [Text.lines]

/-- **In row 10000 the caret does not stand under its column**: it stands one character to the left
of the dollar sign that it points at, and the report shows it nowhere else. -/
theorem lowDollarSource_caret :
    tokenize (lowDollarSource 9999) = .error (lowDollarError 9999) ∧
    (lowDollarError 9999).pos = ⟨10000, 1⟩ ∧
    (Text.lines (lowDollarSource 9999).toList)[10000 - 1]? = some ['$'] ∧
    PointsInto ((Failure.lexical (lowDollarError 9999)).report (lowDollarSource 9999)).toList
      ['$'] 8 7 ∧
    ¬ ∃ width, PointsInto ((Failure.lexical (lowDollarError 9999)).report
      (lowDollarSource 9999)).toList ['$'] width (width + (1 - 1)) := by
  have hfive : (Number.digits 10000).length = 5 := by decide +kernel
  have hpoints : PointsInto
      ((Failure.lexical (lowDollarError 9999)).report (lowDollarSource 9999)).toList
      ['$'] 8 7 := by
    have hreport := pointsInto_report (f := .lexical (lowDollarError 9999)) rfl
      (lines_lowDollarSource 9999)
    rwa [show (lowDollarError 9999).pos.row = 10000 from rfl, hfive] at hreport
  refine ⟨tokenize_lowDollarSource 9999, rfl, lines_lowDollarSource 9999, hpoints, ?_⟩
  rintro ⟨width, hwidth⟩
  have hsame := hwidth.unique hpoints
  omega

end Pseudocode
