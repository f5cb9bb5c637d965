import Pseudocode.Proofs.Lexical.LongestMatch
import Pseudocode.Proofs.Lexical.Positions

/-!
# Tokens line by line

A newline extends no lexeme and ends every line comment, so what stands behind it has no influence
on the tokens in front of it. The other way round, the text in front leaves nothing behind but the
row in which the next line begins. Hence the tokens of two texts with a newline between them are
those of the first and those of the second, moved down.
-/
namespace Pseudocode

open Item

/-- The position a number of rows further down, in the same column. -/
def Position.down (n : Nat) (p : Position) : Position := ⟨p.row + n, p.col⟩

/-- A token a number of rows further down. -/
def Token.down (n : Nat) (t : Token) : Token := { t with pos := t.pos.down n }

/-- A fault a number of rows further down. -/
def LexError.down (n : Nat) (e : LexError) : LexError := { e with pos := e.pos.down n }

theorem Position.step_down (n : Nat) (p : Position) (c : Char) :
    (p.down n).step c = (p.step c).down n := by
  by_cases hc : c = '\n'
  · simp [step, down, hc, Nat.add_right_comm]
  · simp [step, down, hc]

/-- Counting a text from a lower row gives lower rows and the same columns. -/
@[simp] theorem Position.after_down (n : Nat) (p : Position) (text : List Char) :
    (p.down n).after text = (p.after text).down n := by
  induction text generalizing p with
  | nil => rfl
  | cons c text ih => rw [after_cons, after_cons, step_down, ih]

/-- Behind a newline the first column begins, as many rows down as there are newlines. -/
theorem Position.after_start_newline (text : List Char) :
    start.after (text ++ ['\n']) = start.down (text.count '\n' + 1) := by
  rw [after_start, behind_concat]
  simp [step, down, behind, start, Nat.add_comm, Nat.add_left_comm]

namespace Cursor

/-- **A text that begins further down has the same tokens further down**, or the same fault. -/
theorem tokenize_down (n : Nat) (cur : Cursor) :
    tokenize ⟨cur.pos.down n, cur.rest⟩ =
      ((tokenize cur).map (List.map (Token.down n))).mapError (LexError.down n) := by
  induction cur using Cursor.scan.induct with
  | case1 pos =>
      rw [tokenize_nil, tokenize_nil]
      rfl
  | case2 pos c cs r fault hfound =>
      rw [tokenize_error hfound, tokenize_error hfound]
      rfl
  | case3 pos c cs r item hfound ih =>
      have hread : read c cs = ⟨.ok item, r.taken, r.rest⟩ := by rw [← hfound]
      have hlater : tokenize ⟨(pos.after r.taken).down n, r.rest⟩ =
          ((tokenize ⟨pos.after r.taken, r.rest⟩).map (List.map (Token.down n))).mapError
            (LexError.down n) := ih
      have hfirst : (Entry.mk (pos.down n) item r.taken).token? =
          (Entry.mk pos item r.taken).token?.map (Token.down n) := by
        cases item <;> rfl
      rw [tokenize_item hread, tokenize_item hread, Position.after_down, hlater, hfirst]
      cases tokenize ⟨pos.after r.taken, r.rest⟩ with
      | error e => rfl
      | ok later =>
          cases (Entry.mk pos item r.taken).token? with
          | none => rfl
          | some t => rfl

end Cursor

section Newline
variable {rest : List Char} (later : List Char)

theorem head?_append_newline {c : Char} (h : c ∈ (rest ++ '\n' :: later).head?) :
    c ∈ rest.head? ∨ c = '\n' := by
  cases rest with
  | nil => exact .inr (Option.some.inj h).symm
  | cons d rest => exact .inl h

/-- A newline makes no lexeme longer. -/
theorem Longest.append_newline {lexeme : List Char} (h : Longest lexeme rest) :
    Longest lexeme (rest ++ '\n' :: later) where
  word hword c hc := by
    rcases head?_append_newline later hc with hc | rfl
    · exact h.word hword c hc
    · rfl
  number hnumber c hc := by
    rcases head?_append_newline later hc with hc | rfl
    · exact h.number hnumber c hc
    · rfl
  integer hinteger d more heq := by
    -- the point and the digit behind it could stand on both sides of the end of `rest`
    match rest with
    | [] => cases heq
    | [c] =>
        cases heq
        rfl
    | c :: e :: rest =>
        cases heq
        exact h.integer hinteger d rest rfl
  operator hoperator hhead := by
    rcases head?_append_newline later hhead with hhead | hhead
    · exact h.operator hoperator hhead
    · cases hhead
  slash hslash := by
    obtain ⟨hline, hblock⟩ := h.slash hslash
    constructor
    · intro hhead
      rcases head?_append_newline later hhead with hhead | hhead
      · exact hline hhead
      · cases hhead
    · intro hhead
      rcases head?_append_newline later hhead with hhead | hhead
      · exact hblock hhead
      · cases hhead

/-- **What is read at the end of a text is read in front of a newline too.** -/
theorem read_append_newline {c : Char} {cs : List Char} {item : Item}
    (hfound : (read c cs).found = .ok item) :
    read c (cs ++ '\n' :: later) =
      ⟨.ok item, (read c cs).taken, (read c cs).rest ++ '\n' :: later⟩ := by
  have hline : (∀ d ∈ (read c cs).rest.head?, d = '\n') →
      ∀ d ∈ ((read c cs).rest ++ '\n' :: later).head?, d = '\n' := by
    intro hline d hd
    rcases head?_append_newline later hd with hd | hd
    · exact hline d hd
    · exact hd
  obtain ⟨d, ds, htext, hread⟩ := read_before hfound
    (fun lexeme hlongest => hlongest.append_newline later) hline
  rw [← List.append_assoc, taken_append_rest, List.cons_append] at htext
  obtain ⟨rfl, rfl⟩ := List.cons.inj htext
  exact hread

end Newline

/-- A newline in front of a text leaves its tokens in the next row. -/
theorem Cursor.tokenize_newline (pos : Position) (later : List Char) :
    tokenize ⟨pos, '\n' :: later⟩ = tokenize ⟨pos.after ['\n'], later⟩ :=
  tokenize_silent (read_blank (by decide) later) (by simp) pos

theorem Cursor.kind_ne_eof_of_token? {c : Char} {cs : List Char} {item : Item} {pos : Position}
    {text : List Char} {t : Token} (hfound : (read c cs).found = .ok item)
    (h : (Entry.mk pos item text).token? = some t) : t.kind ≠ .eof := by
  cases item with
  | token k =>
      obtain rfl := Option.some.inj h
      exact ne_eof_of_isLexeme (fits_of_read hfound).isLexeme
  | _ => cases h

/-- The tokens of a text end with its end and stand, without it, in front of those of whatever
follows behind a newline. -/
theorem Cursor.tokenize_append_newline {cur : Cursor} : ∀ tokens, cur.tokenize = .ok tokens →
    ∃ front, tokens = front ++ [endToken (cur.pos.after cur.rest)] ∧
      (∀ t ∈ front, t.kind ≠ .eof) ∧
      ∀ later, tokenize ⟨cur.pos, cur.rest ++ '\n' :: later⟩ =
        (tokenize ⟨cur.pos.after (cur.rest ++ ['\n']), later⟩).map (front ++ ·) := by
  induction cur using Cursor.scan.induct with
  | case1 pos =>
      intro tokens h
      rw [tokenize_nil] at h
      cases h
      refine ⟨[], rfl, by simp, fun later => ?_⟩
      rw [List.nil_append, List.nil_append, tokenize_newline]
      cases tokenize ⟨pos.after ['\n'], later⟩ with
      | error e => rfl
      | ok ts => rfl
  | case2 pos c cs r fault hfound =>
      intro tokens h
      rw [tokenize_error hfound] at h
      cases h
  | case3 pos c cs r item hfound ih =>
      intro tokens h
      have hread : read c cs = ⟨.ok item, r.taken, r.rest⟩ := by rw [← hfound]
      have htext : c :: cs = r.taken ++ r.rest := (taken_append_rest c cs).symm
      rw [tokenize_item hread] at h
      cases hrest : tokenize ⟨pos.after r.taken, r.rest⟩ with
      | error e =>
          rw [hrest] at h
          cases h
      | ok ts =>
          rw [hrest] at h
          obtain rfl := Except.ok.inj h
          obtain ⟨front, rfl, hfront, hlater⟩ := ih ts hrest
          refine ⟨(Entry.mk pos item r.taken).token?.toList ++ front, ?_, ?_, fun later => ?_⟩
          · rw [List.append_assoc, htext, Position.after_append]
            rfl
          · rw [List.forall_mem_append]
            refine ⟨?_, hfront⟩
            intro t ht
            exact kind_ne_eof_of_token? hfound (Option.mem_toList.1 ht)
          · -- the item is read as before, and the newline is still ahead
            have hmore : tokenize ⟨pos.after r.taken, r.rest ++ '\n' :: later⟩ =
                (tokenize ⟨(pos.after r.taken).after (r.rest ++ ['\n']), later⟩).map
                  (front ++ ·) := hlater later
            have hitem := tokenize_item (read_append_newline later hfound) pos
            have hpos : pos.after (c :: cs ++ ['\n']) =
                (pos.after r.taken).after (r.rest ++ ['\n']) := by
              rw [htext, List.append_assoc, Position.after_append]
            change tokenize ⟨pos, c :: (cs ++ '\n' :: later)⟩ =
              (tokenize ⟨pos.after (c :: cs ++ ['\n']), later⟩).map _
            rw [hpos, hitem, hmore]
            cases tokenize ⟨(pos.after r.taken).after (r.rest ++ ['\n']), later⟩ with
            | error e => rfl
            | ok ts => exact congrArg Except.ok (List.append_assoc ..).symm

/-- **Lexing is compositional over lines.** If a text has tokens, then those of the text, a newline
and another text are its own without its end, and those of the other text moved down by the
newlines in front of it. If the other text has a fault, it is the same fault, moved down. -/
theorem lexing_composes_over_lines {x : String} {tokens : List Token}
    (h : tokenize x = .ok tokens) :
    ∃ front, tokens = front ++ [⟨.eof, "", .behind x.toList⟩] ∧ (∀ t ∈ front, t.kind ≠ .eof) ∧
      ∀ y : String,
        (∀ later, tokenize y = .ok later → tokenize (x ++ "\n" ++ y) =
          .ok (front ++ later.map (Token.down (x.toList.count '\n' + 1)))) ∧
        (∀ e, tokenize y = .error e → tokenize (x ++ "\n" ++ y) =
          .error (e.down (x.toList.count '\n' + 1))) := by
  obtain ⟨front, rfl, hfront, hlater⟩ := Cursor.tokenize_append_newline tokens h
  refine ⟨front, ?_, hfront, fun y => ?_⟩
  · rw [← Position.after_start]
    rfl
  · have hy : tokenize (x ++ "\n" ++ y) =
        (((tokenize y).map (List.map (Token.down (x.toList.count '\n' + 1)))).mapError
          (LexError.down (x.toList.count '\n' + 1))).map (front ++ ·) := by
      have htext : (x ++ "\n" ++ y).toList = x.toList ++ '\n' :: y.toList := by simp
      have hdown := Cursor.tokenize_down (x.toList.count '\n' + 1) (.ofSource y)
      have hx : Cursor.tokenize ⟨.start, x.toList ++ '\n' :: y.toList⟩ =
          (Cursor.tokenize ⟨Position.start.after (x.toList ++ ['\n']), y.toList⟩).map
            (front ++ ·) := hlater y.toList
      rw [Position.after_start_newline] at hx
      rw [tokenize, Cursor.ofSource, htext, hx]
      exact congrArg (Except.map (front ++ ·)) hdown
    constructor
    · intro later hok
      rw [hy, hok]
      rfl
    · intro e herror
      rw [hy, herror]
      rfl

/-- Two lines that end with a sign which an equality sign would extend. -/
def openLines : String := "1 // one\n<"

/-- The equality sign in the next line stands for itself, and a fault there is reported there. -/
theorem openLines_compose :
    tokenize openLines =
      .ok [⟨.literal (.int 1), "1", ⟨1, 1⟩⟩, ⟨.rel .less, "<", ⟨2, 1⟩⟩, ⟨.eof, "", ⟨2, 2⟩⟩] ∧
    tokenize (openLines ++ "\n" ++ "= b") =
      .ok [⟨.literal (.int 1), "1", ⟨1, 1⟩⟩, ⟨.rel .less, "<", ⟨2, 1⟩⟩, ⟨.gets, "=", ⟨3, 1⟩⟩,
        ⟨.name "b", "b", ⟨3, 3⟩⟩, ⟨.eof, "", ⟨3, 4⟩⟩] ∧
    tokenize (openLines ++ "\n" ++ "= .5") = .error ⟨.unexpectedCharacter '.', ⟨3, 3⟩⟩ := by
  have hlines : tokenize openLines =
      .ok ([⟨.literal (.int 1), "1", ⟨1, 1⟩⟩, ⟨.rel .less, "<", ⟨2, 1⟩⟩] ++
        [⟨.eof, "", .behind openLines.toList⟩]) := by decide +kernel
  have hname : tokenize "= b" =
      .ok [⟨.gets, "=", ⟨1, 1⟩⟩, ⟨.name "b", "b", ⟨1, 3⟩⟩, ⟨.eof, "", ⟨1, 4⟩⟩] := by decide +kernel
  have hpoint : tokenize "= .5" = .error ⟨.unexpectedCharacter '.', ⟨1, 3⟩⟩ := by decide +kernel
  obtain ⟨front, hfront, -, hlater⟩ := lexing_composes_over_lines hlines
  obtain rfl := List.append_cancel_right hfront
  exact ⟨hlines, (hlater _).1 _ hname, (hlater _).2 _ hpoint⟩

end Pseudocode
