import Pseudocode.Proofs.Lexical.Reading

/-!
# Longest matches

Reading a text item by item finds the tokens that the lexical grammar gives it. A scan goes over
blanks and comments as the grammar does and takes every lexeme as long as it can be, so a text has
tokens exactly if it has the shape of the grammar, and it has no other tokens.
-/
namespace Pseudocode

open Item

section Comments
variable {cs comment rest : List Char}

/-- A comment that is split off ends with a mark that closes it, and has no other one inside. -/
theorem splitBlock?_eq_some (h : splitBlock? cs = some (comment, rest)) :
    ∃ inside, comment = inside ++ ['*', '/'] ∧ ¬ ['*', '/'] <:+: inside := by
  fun_induction splitBlock? cs generalizing comment rest with
  | case1 => simp at h
  | case2 cs =>
      cases h
      exact ⟨[], rfl, by simp⟩
  | case3 c cs hopen ih =>
      obtain ⟨⟨later, behind⟩, hlater, heq⟩ := Option.map_eq_some_iff.1 h
      cases heq
      obtain ⟨inside, rfl, hinside⟩ := ih hlater
      refine ⟨c :: inside, rfl, ?_⟩
      rw [List.infix_cons_iff, not_or]
      refine ⟨?_, hinside⟩
      -- a mark across the first two characters would have been found here
      intro hmark
      have hcs := splitBlock?_append hlater
      cases inside with
      | nil => simp at hmark
      | cons d inside =>
          simp only [List.cons_prefix_cons, List.nil_prefix, and_true] at hmark
          exact hopen (inside ++ ['*', '/'] ++ rest) hmark.1.symm (by rw [← hcs, ← hmark.2]; simp)

/-- A block comment ends with the first mark that closes it, whatever follows. -/
theorem splitBlock?_append_mark (h : ¬ ['*', '/'] <:+: comment) (rest : List Char) :
    splitBlock? (comment ++ '*' :: '/' :: rest) = some (comment ++ ['*', '/'], rest) := by
  induction comment with
  | nil => rfl
  | cons c comment ih =>
      rw [List.infix_cons_iff, not_or] at h
      rw [List.cons_append, splitBlock?, ih h.2]
      · rfl
      · intro later hc heq
        subst hc
        cases comment with
        | nil => simp at heq
        | cons d comment =>
            obtain rfl : d = '/' := (List.cons.inj heq).1
            exact h.1 (by simp)

theorem read_blank {c : Char} (h : Text.isBlank c = true) (cs : List Char) :
    read c cs = ⟨.ok .blank, [c], cs⟩ := by
  rw [read.eq_def, if_pos h]

/-- A line comment is read up to the end of its line. -/
theorem read_line (h : '\n' ∉ comment) (hrest : ∀ c ∈ rest.head?, c = '\n') :
    read '/' ('/' :: (comment ++ rest)) = ⟨.ok .lineComment, '/' :: '/' :: comment, rest⟩ := by
  have hread : ∀ cs, read '/' ('/' :: cs) = readLine cs := fun _ => rfl
  have hcomment : ∀ c ∈ comment, decide (c ≠ '\n') = true := by
    intro c hc
    rw [decide_eq_true_eq]
    rintro rfl
    exact h hc
  have hends : ∀ c ∈ rest.head?, decide (c ≠ '\n') = false := by
    intro c hc
    simp [hrest c hc]
  obtain ⟨htake, hdrop⟩ := span_append hcomment hends
  rw [hread, readLine, htake, hdrop]

/-- A block comment is read up to the first mark that closes it. -/
theorem read_block (h : ¬ ['*', '/'] <:+: comment) (rest : List Char) :
    read '/' ('*' :: (comment ++ '*' :: '/' :: rest)) =
      ⟨.ok .blockComment, '/' :: '*' :: (comment ++ ['*', '/']), rest⟩ := by
  have hread : ∀ cs, read '/' ('*' :: cs) = readBlock cs := fun _ => rfl
  rw [hread, readBlock, splitBlock?_append_mark h]

end Comments

/-- An item that is no token goes in front of blanks and comments. -/
theorem trivia_read {c : Char} {cs gap rest : List Char} {item : Item}
    (hfound : (read c cs).found = .ok item) (hsilent : ∀ k, item ≠ .token k)
    (hrest : (read c cs).rest = gap ++ rest) (hgap : Trivia rest gap) :
    Trivia rest ((read c cs).taken ++ gap) := by
  rcases read_cases hfound with ⟨-, hblank⟩ | ⟨-, rfl, later, rfl⟩ |
    ⟨-, rfl, later, ⟨comment, behind⟩, rfl, hsplit⟩ | ⟨k, hk, -⟩
  · rw [read_blank hblank] at hrest ⊢
    exact .blank hblank hgap
  · have hread : read '/' ('/' :: later) = readLine later := rfl
    rw [hread] at hrest ⊢
    refine .line ?_ ?_ hgap
    · intro hmem
      exact absurd (mem_takeWhile hmem) (by simp)
    · rw [← hrest]
      intro d hd
      have hfalse := head?_dropWhile d hd
      simpa using hfalse
  · have hread : read '/' ('*' :: later) = ⟨.ok .blockComment, '/' :: '*' :: comment, behind⟩ := by
      have hblock : read '/' ('*' :: later) = readBlock later := rfl
      rw [hblock, readBlock, hsplit]
    obtain ⟨inside, rfl, hinside⟩ := splitBlock?_eq_some hsplit
    rw [hread]
    have htrivia := Trivia.block hinside hgap
    simpa using htrivia
  · exact absurd hk (hsilent k)

/-- **An item is read in front of another text as well**, provided that no lexeme could be longer
there that could not be longer here, and that a line that ends here ends there. -/
theorem read_before {c : Char} {cs behind : List Char} {item : Item}
    (hfound : (read c cs).found = .ok item)
    (hlongest : ∀ lexeme, Longest lexeme (read c cs).rest → Longest lexeme behind)
    (hline : (∀ d ∈ (read c cs).rest.head?, d = '\n') → ∀ d ∈ behind.head?, d = '\n') :
    ∃ d ds, (read c cs).taken ++ behind = d :: ds ∧
      read d ds = ⟨.ok item, (read c cs).taken, behind⟩ := by
  rcases read_cases hfound with ⟨rfl, hblank⟩ | ⟨rfl, rfl, later, rfl⟩ |
    ⟨rfl, rfl, later, ⟨comment, rest⟩, rfl, hsplit⟩ | ⟨k, rfl, hlexeme, hfits⟩
  · rw [read_blank hblank]
    exact ⟨c, behind, rfl, read_blank hblank behind⟩
  · have hread : read '/' ('/' :: later) = readLine later := rfl
    rw [hread] at hline ⊢
    refine ⟨'/', '/' :: (later.takeWhile (· ≠ '\n') ++ behind), rfl, read_line ?_ (hline ?_)⟩
    · intro hmem
      exact absurd (mem_takeWhile hmem) (by simp)
    · intro d hd
      have hfalse := head?_dropWhile d hd
      simpa using hfalse
  · have hread : read '/' ('*' :: later) = ⟨.ok .blockComment, '/' :: '*' :: comment, rest⟩ := by
      have hblock : read '/' ('*' :: later) = readBlock later := rfl
      rw [hblock, readBlock, hsplit]
    obtain ⟨inside, rfl, hinside⟩ := splitBlock?_eq_some hsplit
    rw [hread]
    exact ⟨'/', '*' :: (inside ++ '*' :: '/' :: behind), by simp, read_block hinside behind⟩
  · exact read_of_fits ⟨hlexeme, hlongest _ hfits⟩

namespace Cursor
variable {pos : Position} {c : Char} {cs : List Char}

/-- A scan enters the item in front and goes on behind it. -/
theorem scan_cons {item : Item} (found : (read c cs).found = .ok item) :
    scan ⟨pos, c :: cs⟩ =
      ⟨⟨pos, item, (read c cs).taken⟩ :: (scan (past ⟨pos, c :: cs⟩ (read c cs))).entries,
        (scan (past ⟨pos, c :: cs⟩ (read c cs))).outcome⟩ := by
  rw [scan]
  split
  · next fault h => cases found.symm.trans h
  · next item' h =>
    obtain rfl := Except.ok.inj (found.symm.trans h)
    rfl

/-- A scan ends at the first fault. -/
theorem scan_error {fault : LexFault} (found : (read c cs).found = .error fault) :
    scan ⟨pos, c :: cs⟩ = ⟨[], .error ⟨fault, pos⟩⟩ := by
  rw [scan]
  split
  · next fault' h =>
    obtain rfl := Except.error.inj (found.symm.trans h)
    rfl
  · next item h => cases found.symm.trans h

theorem tokenize_nil (pos : Position) : tokenize ⟨pos, []⟩ = .ok [endToken pos] := by
  rw [tokenize, scan]
  rfl

theorem tokenize_error {fault : LexFault} (found : (read c cs).found = .error fault) :
    tokenize ⟨pos, c :: cs⟩ = .error ⟨fault, pos⟩ := by
  rw [tokenize, scan_error found]
  rfl

/-- Blanks and comments leave no token. -/
theorem tokenize_silent {item : Item} {taken rest : List Char}
    (hread : read c cs = ⟨.ok item, taken, rest⟩) (silent : ∀ k, item ≠ .token k)
    (pos : Position) : tokenize ⟨pos, c :: cs⟩ = tokenize ⟨pos.after taken, rest⟩ := by
  have hfound : (read c cs).found = .ok item := by rw [hread]
  rw [tokenize, scan_cons hfound, past, hread]
  cases item with
  | token k => exact absurd rfl (silent k)
  | _ => rfl

/-- Behind a token come those of the rest. -/
theorem tokenize_token {k : Kind} {taken rest : List Char} (hread : read c cs = .token k taken rest)
    (pos : Position) :
    tokenize ⟨pos, c :: cs⟩ =
      (tokenize ⟨pos.after taken, rest⟩).map (⟨k, String.ofList taken, pos⟩ :: ·) := by
  have hfound : (read c cs).found = .ok (.token k) := by
    rw [hread]
    rfl
  rw [tokenize, scan_cons hfound, past, hread, tokenize, Scan.tokens, Scan.tokens]
  dsimp only [Reading.token]
  cases (scan ⟨pos.after taken, rest⟩).outcome <;> rfl

/-- Behind an item come the tokens of the rest, with that of the item in front if it is one. -/
theorem tokenize_item {item : Item} {taken rest : List Char}
    (hread : read c cs = ⟨.ok item, taken, rest⟩) (pos : Position) :
    tokenize ⟨pos, c :: cs⟩ =
      (tokenize ⟨pos.after taken, rest⟩).map ((Entry.mk pos item taken).token?.toList ++ ·) := by
  by_cases htoken : ∃ k, item = .token k
  · obtain ⟨k, rfl⟩ := htoken
    exact tokenize_token hread pos
  · have silent : ∀ k, item ≠ .token k := fun k hk => htoken ⟨k, hk⟩
    have hnone : (Entry.mk pos item taken).token? = none := by
      cases item with
      | token k => exact absurd rfl (silent k)
      | _ => rfl
    rw [tokenize_silent hread silent pos, hnone]
    cases tokenize ⟨pos.after taken, rest⟩ with
    | error e => rfl
    | ok tokens => rfl

end Cursor

/-- Blanks and comments in front of a text change nothing but the places of its tokens. -/
theorem tokenize_trivia {rest gap : List Char} (h : Trivia rest gap) (pos : Position) :
    Cursor.tokenize ⟨pos, gap ++ rest⟩ = Cursor.tokenize ⟨pos.after gap, rest⟩ := by
  induction h generalizing pos with
  | nil => rfl
  | @blank c gap blank later ih =>
      have htokens := Cursor.tokenize_silent (read_blank blank (gap ++ rest)) (by simp) pos
      exact htokens.trans (ih _)
  | @line comment gap line ends later ih =>
      have htokens := Cursor.tokenize_silent (read_line line ends) (by simp) pos
      simpa [ih] using htokens
  | @block comment gap closed later ih =>
      have htokens := Cursor.tokenize_silent (read_block closed (gap ++ rest)) (by simp) pos
      simpa [ih] using htokens

/-- A piece of text that goes in front of blanks and comments goes in front of a text. -/
theorem Tokenized.prepend {pos : Position} {piece text : List Char} {tokens : List Token}
    (h : Tokenized (pos.after piece) text tokens)
    (hpiece : ∀ gap rest, text = gap ++ rest → Trivia rest gap → Trivia rest (piece ++ gap)) :
    Tokenized pos (piece ++ text) tokens := by
  generalize hpos : pos.after piece = start at h
  cases h with
  | finish trivia =>
      have htrivia := hpiece text [] (List.append_nil text).symm trivia
      rw [← hpos, ← Position.after_append]
      exact .finish htrivia
  | @lexeme _ gap lexeme rest k tokens trivia isLexeme longest later =>
      have htrivia := hpiece gap (lexeme ++ rest) rfl trivia
      subst hpos
      rw [← Position.after_append] at later ⊢
      rw [← List.append_assoc] at later ⊢
      exact .lexeme htrivia isLexeme longest later

/-- The tokens that are found are those of the grammar. -/
theorem tokenized_of_tokenize {cur : Cursor} :
    ∀ tokens, cur.tokenize = .ok tokens → Tokenized cur.pos cur.rest tokens := by
  induction cur using Cursor.scan.induct with
  | case1 pos =>
      intro tokens h
      rw [Cursor.tokenize_nil] at h
      cases h
      exact .finish .nil
  | case2 pos c cs r fault hfound =>
      intro tokens h
      rw [Cursor.tokenize_error hfound] at h
      cases h
  | case3 pos c cs r item hfound ih =>
      intro tokens h
      have hread : read c cs = ⟨.ok item, r.taken, r.rest⟩ := by rw [← hfound]
      have htext : r.taken ++ r.rest = c :: cs := taken_append_rest c cs
      by_cases htoken : ∃ k, item = .token k
      · obtain ⟨k, rfl⟩ := htoken
        obtain ⟨hlexeme, hlongest⟩ := fits_of_read hfound
        rw [Cursor.tokenize_token hread] at h
        cases hlater : Cursor.tokenize ⟨pos.after r.taken, r.rest⟩ with
        | error e =>
            rw [hlater] at h
            cases h
        | ok later =>
            rw [hlater] at h
            cases h
            have htokens := Tokenized.lexeme .nil hlexeme hlongest (ih later hlater)
            rwa [List.nil_append, htext] at htokens
      · have silent : ∀ k, item ≠ .token k := fun k hk => htoken ⟨k, hk⟩
        rw [Cursor.tokenize_silent hread silent] at h
        have hlater : Tokenized pos (r.taken ++ r.rest) tokens :=
          (ih tokens h).prepend fun gap rest => trivia_read hfound silent
        rwa [htext] at hlater

/-- The tokens of the grammar are found. -/
theorem tokenize_of_tokenized {pos : Position} {text : List Char} {tokens : List Token}
    (h : Tokenized pos text tokens) : Cursor.tokenize ⟨pos, text⟩ = .ok tokens := by
  induction h with
  | @finish pos gap trivia =>
      have htokens := tokenize_trivia trivia pos
      rwa [List.append_nil, Cursor.tokenize_nil] at htokens
  | @lexeme pos gap lexeme rest k tokens trivia isLexeme longest later ih =>
      obtain ⟨c, cs, htext, hread⟩ := read_of_fits ⟨isLexeme, longest⟩
      rw [Position.after_append] at ih
      rw [tokenize_trivia trivia, htext, Cursor.tokenize_token hread, ih]
      rfl

/-- **The tokens of a text are its longest matches**: a text has tokens exactly if it is a row of
lexemes with blanks and comments between them, every lexeme of the class of its token and none
that could be longer; and then these are its tokens. -/
theorem tokenizes_longest_matches (source : String) (tokens : List Token) :
    tokenize source = .ok tokens ↔ Tokenized .start source.toList tokens := by
  constructor
  · intro h
    exact tokenized_of_tokenize tokens h
  · intro h
    exact tokenize_of_tokenized h

end Pseudocode
