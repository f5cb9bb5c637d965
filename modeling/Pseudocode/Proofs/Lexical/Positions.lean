import Mathlib.Data.List.DropRight
import Pseudocode.Proofs.Lexical.Reading

/-!
# Positions of cursors and tokens

A cursor can be asked for its next token as often as one likes, also after a fault. After any
number of calls it stands at an offset of its source, and its position is the one that the
characters in front of that offset determine: a row for every newline, a column for every
character behind the last one. Hence a token, and a fault as well, is reported where it begins,
and a cursor at the end stays there.
-/
namespace Pseudocode

/-- The position behind a text, which begins in row one and column one. -/
def Position.behind (text : List Char) : Position where
  row := 1 + text.count '\n'
  col := 1 + (text.rtakeWhile (· ≠ '\n')).length

/-- One more character moves the position by one step. -/
theorem Position.behind_concat (text : List Char) (c : Char) :
    behind (text ++ [c]) = (behind text).step c := by
  rw [step, behind, List.count_append, List.rtakeWhile_concat]
  by_cases hc : c = '\n'
  · simp [hc, behind, Nat.add_assoc]
  · simp [hc, behind, Nat.add_assoc]

/-- Counting a text character by character gives the same position. -/
theorem Position.after_start (text : List Char) : start.after text = behind text := by
  induction text using List.reverseRecOn with
  | nil => rfl
  | append_singleton text c ih =>
      rw [after_append, ih, behind_concat]
      rfl

/-- No lexeme stands for the end of a text. -/
theorem ne_eof_of_isLexeme {k : Kind} {lexeme : List Char} (h : IsLexeme k lexeme) : k ≠ .eof := by
  rintro rfl
  cases h with
  | reserved mem => simp [reservedWords] at mem
  | symbol mem => simp [symbols] at mem

namespace Cursor

section Call
variable {pos : Position} {c : Char} {cs : List Char}

theorem next_nil (pos : Position) : next ⟨pos, []⟩ = (.ok (endToken pos), ⟨pos, []⟩) := by
  rw [next]

/-- A fault is answered with its position, and the cursor moves behind what was taken. -/
theorem next_fault {fault : LexFault} (found : (Item.read c cs).found = .error fault) :
    next ⟨pos, c :: cs⟩ = (.error ⟨fault, pos⟩, past ⟨pos, c :: cs⟩ (Item.read c cs)) := by
  rw [next]
  split
  · next fault' h =>
    obtain rfl := Except.error.inj (found.symm.trans h)
    rfl
  · next kind h => cases found.symm.trans h
  · next item _ h => cases found.symm.trans h

/-- A token is answered with its text and position. -/
theorem next_token {k : Kind} (found : (Item.read c cs).found = .ok (.token k)) :
    next ⟨pos, c :: cs⟩ =
      (.ok ⟨k, String.ofList (Item.read c cs).taken, pos⟩,
        past ⟨pos, c :: cs⟩ (Item.read c cs)) := by
  rw [next]
  split
  · next fault h => cases found.symm.trans h
  · next k' h =>
    cases found.symm.trans h
    rfl
  · next item hitem h => exact absurd (Except.ok.inj (found.symm.trans h)).symm (hitem k)

/-- Blanks and comments are passed over. -/
theorem next_silent {item : Item} (found : (Item.read c cs).found = .ok item)
    (silent : ∀ k, item ≠ .token k) :
    next ⟨pos, c :: cs⟩ = next (past ⟨pos, c :: cs⟩ (Item.read c cs)) := by
  rw [next]
  split
  · next fault h => cases found.symm.trans h
  · next k h => exact absurd (Except.ok.inj (found.symm.trans h)) (silent k)
  · rfl

end Call

/-- A cursor at an offset of a text: the rest of the text is ahead of it, and its position is that
of the offset. -/
structure Placed (text : List Char) (offset : Nat) (cur : Cursor) : Prop where
  le : offset ≤ text.length
  ahead : cur.rest = text.drop offset
  position : cur.pos = .behind (text.take offset)

/-- The answer to a call that was made at the offset `start` and went up to `finish`. A token
carries the text from the offset where it begins, and the position of that offset; the end of the
text stands behind its last character; a fault has the position of the item that has it. -/
inductive Answered (text : List Char) (start finish : Nat) : Except LexError Token → Prop where
  | token {t : Token} {first : Nat} (kind : t.kind ≠ .eof) (after : start ≤ first)
      (nonempty : first < finish) (lexeme : t.lexeme.toList = (text.take finish).drop first)
      (position : t.pos = .behind (text.take first)) : Answered text start finish (.ok t)
  | finish (at_end : finish = text.length) :
      Answered text start finish (.ok ⟨.eof, "", .behind text⟩)
  | fault {e : LexError} {first : Nat} {c : Char} {cs : List Char} (after : start ≤ first)
      (before : first ≤ finish) (item : text.drop first = c :: cs)
      (faulty : (Item.read c cs).found = .error e.fault)
      (position : e.pos = .behind (text.take first)) : Answered text start finish (.error e)

section Placed
variable {text : List Char} {offset : Nat}

theorem placed_ofSource (source : String) : (ofSource source).Placed source.toList 0 where
  le := Nat.zero_le _
  ahead := rfl
  position := rfl

/-- The text ahead of a cursor tells its offset. -/
theorem Placed.offset_eq {cur : Cursor} {other : Nat} (h : cur.Placed text offset)
    (hle : other ≤ text.length) (hahead : cur.rest = text.drop other) : offset = other := by
  have hlength : text.length - offset = text.length - other := by
    rw [← List.length_drop, ← h.ahead, hahead, List.length_drop]
  have hoffset := h.le
  omega

/-- Behind a reading a cursor stands where the text taken ends. -/
theorem Placed.past {pos : Position} {c : Char} {cs : List Char}
    (h : (Cursor.mk pos (c :: cs)).Placed text offset) :
    (past ⟨pos, c :: cs⟩ (Item.read c cs)).Placed text
      (offset + (Item.read c cs).taken.length) := by
  have hahead : text.drop offset = (Item.read c cs).taken ++ (Item.read c cs).rest := by
    rw [Item.taken_append_rest, ← h.ahead]
  have hlength : (Item.read c cs).taken.length ≤ text.length - offset := by
    rw [← List.length_drop, hahead, List.length_append]
    omega
  have htake : text.take (offset + (Item.read c cs).taken.length) =
      text.take offset ++ (Item.read c cs).taken := by
    rw [List.take_add, hahead, List.take_left']
    rfl
  refine ⟨?_, ?_, ?_⟩
  · have := h.le
    omega
  · rw [← List.drop_drop, hahead, List.drop_left']
    · rfl
    · rfl
  · have hpos : pos = .behind (text.take offset) := h.position
    rw [htake, ← Position.after_start, Position.after_append, Position.after_start, ← hpos]
    rfl

theorem Answered.weaken {start finish : Nat} {answer : Except LexError Token}
    (h : Answered text offset finish answer) (hle : start ≤ offset) :
    Answered text start finish answer := by
  cases h with
  | token kind after nonempty lexeme position =>
      exact .token kind (hle.trans after) nonempty lexeme position
  | finish at_end => exact .finish at_end
  | fault after before item faulty position =>
      exact .fault (hle.trans after) before item faulty position

/-- At the end of a text a cursor answers with the end and stays there. -/
theorem Placed.next_at_end {cur : Cursor} (h : cur.Placed text text.length) :
    cur.next = (.ok ⟨.eof, "", .behind text⟩, cur) := by
  obtain ⟨pos, rest⟩ := cur
  obtain rfl : rest = [] := by simpa using h.ahead
  obtain rfl : pos = .behind text := by simpa using h.position
  exact next_nil _

/-- **One call** moves a cursor from an offset to one that is not before it, and what it gives back
is reported where it begins. Blanks and comments may take several readings. -/
theorem Placed.next {cur : Cursor} : ∀ {offset : Nat}, cur.Placed text offset →
    ∃ finish, offset ≤ finish ∧ cur.next.2.Placed text finish ∧
      Answered text offset finish cur.next.1 := by
  induction cur using Cursor.next.induct
  case case1 pos =>
      intro offset h
      have hend : offset = text.length := by
        have hle : text.length ≤ offset := by simpa using h.ahead
        exact Nat.le_antisymm h.le hle
      subst hend
      rw [h.next_at_end]
      exact ⟨text.length, le_rfl, h, .finish rfl⟩
  case case2 pos c cs r fault hfound =>
      intro offset h
      rw [next_fault hfound]
      have hle : offset ≤ offset + (Item.read c cs).taken.length := Nat.le_add_right _ _
      exact ⟨_, hle, h.past, .fault le_rfl hle h.ahead.symm hfound h.position⟩
  case case3 pos c cs r k hfound =>
      intro offset h
      rw [next_token hfound]
      have htaken := List.length_pos_iff.2 (Item.taken_ne_nil hfound)
      have htext : (Item.read c cs).taken =
          (text.take (offset + (Item.read c cs).taken.length)).drop offset := by
        have hahead : text.drop offset = c :: cs := h.ahead.symm
        rw [← List.take_drop, hahead, ← Item.taken_append_rest c cs, List.take_left']
        rfl
      refine ⟨_, Nat.le_add_right _ _, h.past, .token ?_ le_rfl (by omega) ?_ h.position⟩
      · exact ne_eof_of_isLexeme (fits_of_read hfound).1
      · rw [String.toList_ofList]
        exact htext
  case case4 pos c cs r behind item hsilent hfound ih =>
      intro offset h
      rw [next_silent hfound hsilent]
      obtain ⟨finish, hle, hplaced, hanswer⟩ := ih h.past
      exact ⟨finish, by omega, hplaced, hanswer.weaken (Nat.le_add_right _ _)⟩

end Placed

/-- The cursor in a source after a number of calls, whatever these gave back. -/
def afterCalls (source : String) : Nat → Cursor
  | 0 => .ofSource source
  | n + 1 => (afterCalls source n).next.2

/-- Any number of calls leads to an offset of the source. -/
theorem exists_placed_afterCalls (source : String) (n : Nat) :
    ∃ offset, (afterCalls source n).Placed source.toList offset := by
  induction n with
  | zero => exact ⟨0, placed_ofSource source⟩
  | succ n ih =>
      obtain ⟨offset, h⟩ := ih
      obtain ⟨finish, -, hplaced, -⟩ := h.next
      exact ⟨finish, hplaced⟩

/-- A cursor at the end of a source is there after all later calls. -/
theorem placed_at_end_of_le {source : String} {n m : Nat} (hle : n ≤ m)
    (h : (afterCalls source n).Placed source.toList source.toList.length) :
    (afterCalls source m).Placed source.toList source.toList.length := by
  induction hle with
  | refl => exact h
  | @step m _ ih =>
      rw [afterCalls, ih.next_at_end]
      exact ih

/-- The end of a source is given back only there, and from then on by every call. -/
theorem next_eq_of_eof {source : String} {n start finish : Nat} {t : Token}
    (hplaced : (afterCalls source (n + 1)).Placed source.toList finish)
    (hanswer : Answered source.toList start finish (.ok t)) (heof : t.kind = .eof)
    (hnext : (afterCalls source n).next.1 = .ok t) {m : Nat} (hle : n ≤ m) :
    (afterCalls source m).next.1 = .ok t := by
  cases hanswer with
  | token kind => exact absurd heof kind
  | finish at_end =>
      subst at_end
      rcases Nat.eq_or_lt_of_le hle with rfl | hlt
      · exact hnext
      · rw [(placed_at_end_of_le hlt hplaced).next_at_end]

end Cursor

open Cursor

/-- **Positions are always right, also behind faults.** Before and after the `n`-th of any number of
calls the cursor stands at an offset of its source, and its position counts the newlines in front of
that offset and the characters behind the last of them. What the call gives back is reported at the
offset where it begins; once that is the end of the source, every later call gives back the same. -/
theorem positions_always_right (source : String) (n : Nat) :
    ∃ start finish, start ≤ finish ∧
      (afterCalls source n).Placed source.toList start ∧
      (afterCalls source (n + 1)).Placed source.toList finish ∧
      Answered source.toList start finish (afterCalls source n).next.1 ∧
      ∀ t, (afterCalls source n).next.1 = .ok t → t.kind = .eof →
        ∀ m, n ≤ m → (afterCalls source m).next.1 = .ok t := by
  obtain ⟨start, hstart⟩ := exists_placed_afterCalls source n
  obtain ⟨finish, hle, hfinish, hanswer⟩ := hstart.next
  refine ⟨start, finish, hle, hstart, hfinish, hanswer, ?_⟩
  intro t ht heof m hm
  rw [ht] at hanswer
  exact next_eq_of_eof hfinish hanswer heof ht hm

/-- A string that its line leaves open, and a comment that nothing closes. -/
def openSource : String := "x \"y\n/* z\n1"

/-- The calls go on behind the open string and stop for good behind the open comment. -/
theorem openSource_positions :
    (afterCalls openSource 1).next.1 = .error ⟨.unterminatedString, ⟨1, 3⟩⟩ ∧
    (afterCalls openSource 2).next.1 = .error ⟨.unterminatedComment, ⟨2, 1⟩⟩ ∧
    (afterCalls openSource 3).next.1 = .ok ⟨.eof, "", ⟨3, 2⟩⟩ ∧
    (afterCalls openSource 3).pos = ⟨3, 2⟩ ∧
    ∀ m, 3 ≤ m → (afterCalls openSource m).next.1 = .ok ⟨.eof, "", ⟨3, 2⟩⟩ := by
  have hend : (afterCalls openSource 3).next.1 = .ok ⟨.eof, "", ⟨3, 2⟩⟩ := by decide +kernel
  obtain ⟨start, finish, -, -, -, -, hstays⟩ := positions_always_right openSource 3
  refine ⟨by decide +kernel, by decide +kernel, hend, by decide +kernel, hstays _ hend rfl⟩

end Pseudocode
