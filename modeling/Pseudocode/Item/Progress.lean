import Pseudocode.Item

/-!
# What a reading takes

The two facts about readings on which everything that reads a text item by item rests: the
text that was taken and the text that is left make up the whole, and a reading that succeeds
takes something. So reading item by item ends.
-/
namespace Pseudocode.Item

theorem splitInside_append (cs : List Char) : (splitInside cs).1 ++ (splitInside cs).2 = cs := by
  fun_induction splitInside cs <;> simp_all

/-- A block comment and the text behind it make up the whole. -/
theorem splitBlock?_append {cs inside rest : List Char} (h : splitBlock? cs = some (inside, rest)) :
    inside ++ rest = cs := by
  fun_induction splitBlock? cs generalizing inside rest with
  | case1 => simp at h
  | case2 => cases h; rfl
  | case3 c cs _ ih =>
    obtain ⟨⟨i, r⟩, hi, he⟩ := Option.map_eq_some_iff.1 h
    cases he
    simp [ih hi]

/-- Nothing is lost when a word is read; likewise for the other items below. -/
theorem readWord_append (c : Char) (cs : List Char) :
    (readWord c cs).taken ++ (readWord c cs).rest = c :: cs := by
  simp [readWord, Reading.token]

theorem readMarked_append (cs : List Char) :
    (readMarked cs).taken ++ (readMarked cs).rest = '\\' :: cs := by
  have h := List.takeWhile_append_dropWhile (p := isWordChar) (l := cs)
  unfold readMarked
  dsimp only
  split
  · next he => rw [List.isEmpty_iff.1 he] at h; simpa [Reading.faulty] using h
  · split <;> simp [Reading.token, Reading.faulty]

theorem readNumber_append (c : Char) (cs : List Char) :
    (readNumber c cs).taken ++ (readNumber c cs).rest = c :: cs := by
  have h := List.takeWhile_append_dropWhile (p := Char.isDigit) (l := cs)
  unfold readNumber
  dsimp only
  split
  · next d r heq =>
    rw [heq] at h
    split
    · simpa [Reading.token] using h
    · split <;> simpa [Reading.token, Reading.faulty] using h
  · split <;> simp [Reading.token, Reading.faulty]

theorem readString_append (cs : List Char) :
    (readString cs).taken ++ (readString cs).rest = '"' :: cs := by
  have h := splitInside_append cs
  unfold readString
  dsimp only
  split
  · next rest heq => rw [heq] at h; simpa [Reading.token] using h
  · simpa [Reading.faulty] using h

/-- The closing quote and what stands in front of it are taken, or given back. -/
theorem closeChar_append (inside rest : List Char) :
    (closeChar inside rest).taken ++ (closeChar inside rest).rest = '\'' :: inside ++ rest := by
  unfold closeChar
  split <;> simp [Reading.token, Reading.faulty]

theorem readChar_append (cs : List Char) :
    (readChar cs).taken ++ (readChar cs).rest = '\'' :: cs := by
  unfold readChar
  split
  · split
    · simp [Reading.faulty]
    · simp [closeChar_append]
  · simp [Reading.faulty]
  · split
    · simp [Reading.faulty]
    · simp [closeChar_append]
  · simp [Reading.faulty]

theorem readBlock_append (cs : List Char) :
    (readBlock cs).taken ++ (readBlock cs).rest = '/' :: '*' :: cs := by
  unfold readBlock
  split
  · next inside rest h => simp [splitBlock?_append h]
  · simp [Reading.faulty]

theorem readSingle_append (c : Char) (cs : List Char) :
    (readSingle c cs).taken ++ (readSingle c cs).rest = c :: cs := by
  unfold readSingle
  split <;> simp [Reading.token, Reading.faulty]

theorem readSymbol_append (c : Char) (cs : List Char) :
    (readSymbol c cs).taken ++ (readSymbol c cs).rest = c :: cs := by
  unfold readSymbol
  split
  · split
    · simp [Reading.token]
    · exact readSingle_append c _
  · exact readSingle_append c []

theorem readSlash_append (cs : List Char) :
    (readSlash cs).taken ++ (readSlash cs).rest = '/' :: cs := by
  unfold readSlash
  split
  · simp [readLine]
  · exact readBlock_append _
  · exact readSymbol_append '/' cs

/-- Nothing is lost: what was taken and what is left make up the text. -/
theorem taken_append_rest (c : Char) (cs : List Char) :
    (read c cs).taken ++ (read c cs).rest = c :: cs := by
  unfold read
  split
  · rfl
  split
  · exact readWord_append c cs
  split
  · exact readNumber_append c cs
  split
  · next h => exact h ▸ readSlash_append cs
  split
  · next h => exact h ▸ readMarked_append cs
  split
  · next h => exact h ▸ readString_append cs
  split
  · next h => exact h ▸ readChar_append cs
  · exact readSymbol_append c cs

/-- Only a symbol can fail before anything was taken. -/
theorem readSymbol_taken_ne_nil {c : Char} {cs : List Char} {item : Item}
    (h : (readSymbol c cs).found = .ok item) : (readSymbol c cs).taken ≠ [] := by
  have single (h : (readSingle c cs).found = .ok item) : (readSingle c cs).taken ≠ [] := by
    unfold readSingle at h ⊢
    split
    · simp [Reading.token]
    · next he => simp [he, Reading.faulty] at h
  unfold readSymbol at h ⊢
  split
  · split
    · simp [Reading.token]
    · next he => exact single (by simpa [he] using h)
  · exact single h

theorem readSlash_taken_ne_nil (cs : List Char) : (readSlash cs).taken ≠ [] := by
  unfold readSlash
  split
  · simp [readLine]
  · unfold readBlock
    split <;> simp [Reading.faulty]
  · cases cs <;> simp [readSymbol, pairKind?, readSingle, singleKind?, Reading.token]

/-- A successful reading takes something. -/
theorem taken_ne_nil {c : Char} {cs : List Char} {item : Item} (h : (read c cs).found = .ok item) :
    (read c cs).taken ≠ [] := by
  unfold read at h ⊢
  split
  · simp
  split
  · simp [readWord, Reading.token]
  split
  · unfold readNumber
    dsimp only
    split <;> (repeat' split) <;> simp [Reading.token, Reading.faulty]
  split
  · exact readSlash_taken_ne_nil cs
  split
  · unfold readMarked
    dsimp only
    (repeat' split) <;> simp [Reading.token, Reading.faulty]
  split
  · unfold readString
    dsimp only
    split <;> simp [Reading.token, Reading.faulty]
  split
  · unfold readChar closeChar
    (repeat' split) <;> simp [Reading.token, Reading.faulty]
  · next hb hw hd hs hm hq ha =>
    exact readSymbol_taken_ne_nil (by simpa [hb, hw, hd, hs, hm, hq, ha] using h)

/-- A successful reading leaves less than there was. -/
theorem length_rest_lt {c : Char} {cs : List Char} {item : Item}
    (h : (read c cs).found = .ok item) : (read c cs).rest.length < (c :: cs).length := by
  have h1 := congrArg List.length (taken_append_rest c cs)
  have h2 := List.length_pos_iff.2 (taken_ne_nil h)
  rw [List.length_append] at h1
  omega

end Pseudocode.Item
