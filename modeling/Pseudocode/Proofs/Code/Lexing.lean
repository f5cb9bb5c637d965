import Pseudocode.Proofs.Lexical.LongestMatch

/-!
# Texts that spell tokens

The tokens of a text without their positions, as a relation that can be put together from the
front: which kinds a piece of text spells depends on what stands behind it only through the
first character there. All texts in generated code are followed by a character that goes on
with no word and no number.
-/
namespace Pseudocode

/-- The text is a row of items without a fault, and its tokens have these kinds. -/
inductive Lexed : List Char → List Kind → Prop where
  | nil : Lexed [] []
  | skip {c : Char} {cs : List Char} {item : Item} {ks : List Kind}
      (found : (Item.read c cs).found = .ok item) (silent : ∀ k, item ≠ .token k)
      (later : Lexed (Item.read c cs).rest ks) : Lexed (c :: cs) ks
  | token {c : Char} {cs : List Char} {k : Kind} {ks : List Kind}
      (found : (Item.read c cs).found = .ok (.token k))
      (later : Lexed (Item.read c cs).rest ks) : Lexed (c :: cs) (k :: ks)

/-- The kinds of the tokens among the items of a scan. -/
def Cursor.Scan.kinds (s : Cursor.Scan) : List Kind :=
  (s.entries.filterMap Cursor.Entry.token?).map Token.kind

theorem kinds_cons_token (pos : Position) (k : Kind) (text : List Char) (s : Cursor.Scan) :
    Cursor.Scan.kinds ⟨⟨pos, .token k, text⟩ :: s.entries, s.outcome⟩ = k :: s.kinds := rfl

theorem kinds_cons_silent {item : Item} (silent : ∀ k, item ≠ .token k) (pos : Position)
    (text : List Char) (s : Cursor.Scan) :
    Cursor.Scan.kinds ⟨⟨pos, item, text⟩ :: s.entries, s.outcome⟩ = s.kinds := by
  cases item with
  | token k => exact absurd rfl (silent k)
  | _ => rfl

/-- Such a text is scanned without a fault, and the scan finds these kinds. -/
theorem scan_of_lexed {cs : List Char} {ks : List Kind} (h : Lexed cs ks) (pos : Position) :
    (∃ finish, (Cursor.scan ⟨pos, cs⟩).outcome = .ok finish) ∧
      (Cursor.scan ⟨pos, cs⟩).kinds = ks := by
  induction h generalizing pos with
  | nil =>
      rw [Cursor.scan]
      exact ⟨⟨pos, rfl⟩, rfl⟩
  | skip found silent later ih =>
      obtain ⟨houtcome, hkinds⟩ := ih (pos.after (Item.read _ _).taken)
      rw [Cursor.scan_cons found, kinds_cons_silent silent]
      exact ⟨houtcome, hkinds⟩
  | token found later ih =>
      obtain ⟨houtcome, hkinds⟩ := ih (pos.after (Item.read _ _).taken)
      rw [Cursor.scan_cons found, kinds_cons_token]
      exact ⟨houtcome, congrArg _ hkinds⟩

/-- A text whose items have no fault has tokens. -/
theorem exists_tokens_of_lexed {text : String} {ks : List Kind} (h : Lexed text.toList ks) :
    ∃ tokens, tokenize text = .ok tokens ∧ tokens.map Token.kind = ks ++ [.eof] := by
  obtain ⟨⟨finish, houtcome⟩, hkinds⟩ := scan_of_lexed h .start
  refine ⟨(Cursor.scan ⟨.start, text.toList⟩).entries.filterMap Cursor.Entry.token? ++
    [Cursor.endToken finish], ?_, ?_⟩
  · rw [tokenize, Cursor.tokenize, Cursor.Scan.tokens, Cursor.ofSource, houtcome]
    rfl
  · rw [List.map_append, ← hkinds]
    rfl

/-- What is scanned without a fault is such a text. -/
theorem lexed_of_scan {cur : Cursor} {finish : Position} (h : cur.scan.outcome = .ok finish) :
    Lexed cur.rest cur.scan.kinds := by
  induction cur using Cursor.scan.induct with
  | case1 pos =>
      rw [Cursor.scan]
      exact .nil
  | case2 pos c cs r fault hfound =>
      rw [Cursor.scan_error hfound] at h
      cases h
  | case3 pos c cs r item hfound ih =>
      rw [Cursor.scan_cons hfound] at h ⊢
      by_cases htoken : ∃ k, item = .token k
      · obtain ⟨k, rfl⟩ := htoken
        rw [kinds_cons_token]
        exact .token hfound (ih h)
      · have silent : ∀ k, item ≠ .token k := fun k hk => htoken ⟨k, hk⟩
        rw [kinds_cons_silent silent]
        exact .skip hfound silent (ih h)

/-- The tokens of a text are those of its items, and the end. -/
theorem lexed_of_tokenize {text : String} {tokens : List Token} (h : tokenize text = .ok tokens) :
    ∃ ks, Lexed text.toList ks ∧ tokens.map Token.kind = ks ++ [.eof] := by
  rw [tokenize, Cursor.tokenize, Cursor.Scan.tokens] at h
  cases houtcome : (Cursor.ofSource text).scan.outcome with
  | error e =>
      rw [houtcome] at h
      cases h
  | ok finish =>
      rw [houtcome] at h
      obtain rfl := Except.ok.inj h
      refine ⟨_, lexed_of_scan houtcome, ?_⟩
      rw [List.map_append]
      rfl

/-- Every token of a text has a lexeme. -/
theorem exists_isLexeme_of_lexed {cs : List Char} {ks : List Kind} (h : Lexed cs ks) {k : Kind}
    (hk : k ∈ ks) : ∃ lexeme, IsLexeme k lexeme := by
  induction h with
  | nil => cases hk
  | skip found silent later ih => exact ih hk
  | token found later ih =>
      rcases List.mem_cons.1 hk with rfl | hlater
      · exact ⟨_, (fits_of_read found).isLexeme⟩
      · exact ih hlater

/-- The text goes on with neither a word nor a number. -/
def Stops (cs : List Char) : Prop := ∀ c ∈ cs.head?, Item.isWordChar c = false ∧ c ≠ '.'

/-- A text is stopped by a character of no word, unless it is a point. -/
theorem stops_cons {c : Char} (h : Item.isWordChar c = false) (hpoint : c ≠ '.') (cs : List Char) :
    Stops (c :: cs) := by
  intro d hd
  obtain rfl : c = d := by simpa using hd
  exact ⟨h, hpoint⟩

theorem Stops.word {rest : List Char} (h : Stops rest) :
    ∀ c ∈ rest.head?, Item.isWordChar c = false := fun c hc => (h c hc).1

theorem Stops.digit {rest : List Char} (h : Stops rest) : ∀ c ∈ rest.head?, c.isDigit = false := by
  intro c hc
  rw [Bool.eq_false_iff]
  intro hdigit
  exact absurd (isWordChar_of_isDigit hdigit) (by simp [h.word c hc])

/-- A piece of text spells these kinds, whatever stands behind it, if that stops it. -/
def Spells (cs : List Char) (ks : List Kind) : Prop :=
  ∀ rest later, Stops rest → Lexed rest later → Lexed (cs ++ rest) (ks ++ later)

section Symbols
variable {c : Char} {cs taken rest : List Char} {k : Kind} {later : List Kind}

theorem Lexed.of_read (hread : Item.read c cs = .token k taken rest) (h : Lexed rest later) :
    Lexed (c :: cs) (k :: later) :=
  .token (by rw [hread]; rfl) (by rwa [hread])

theorem Lexed.blank (hc : Text.isBlank c = true) (h : Lexed rest later) :
    Lexed (c :: rest) later := by
  have hread : Item.read c rest = ⟨.ok .blank, [c], rest⟩ := by simp [Item.read, hc]
  exact .skip (by rw [hread]) (by simp) (by rwa [hread])

theorem Lexed.space (h : Lexed rest later) : Lexed (' ' :: rest) later := h.blank (by decide)

theorem Lexed.newline (h : Lexed rest later) : Lexed ('\n' :: rest) later := h.blank (by decide)

/-- A symbol that no second character can extend. -/
theorem Lexed.single (hread : Item.read c rest = Item.readSymbol c rest)
    (hpair : ∀ d, Item.pairKind? c d = none) (hsingle : Item.singleKind? c = some k)
    (h : Lexed rest later) : Lexed (c :: rest) (k :: later) := by
  have hsymbol := readSymbol_of_singleKind? hsingle fun d (_ : d ∈ rest.head?) => hpair d
  exact .of_read (hread.trans hsymbol) h

theorem Lexed.leftParen (h : Lexed rest later) : Lexed ('(' :: rest) (.leftParen :: later) :=
  .single rfl (fun _ => rfl) rfl h

theorem Lexed.rightParen (h : Lexed rest later) : Lexed (')' :: rest) (.rightParen :: later) :=
  .single rfl (fun _ => rfl) rfl h

theorem Lexed.leftCurly (h : Lexed rest later) : Lexed ('{' :: rest) (.leftCurly :: later) :=
  .single rfl (fun _ => rfl) rfl h

theorem Lexed.rightCurly (h : Lexed rest later) : Lexed ('}' :: rest) (.rightCurly :: later) :=
  .single rfl (fun _ => rfl) rfl h

theorem Lexed.semicolon (h : Lexed rest later) : Lexed (';' :: rest) (.semicolon :: later) :=
  .single rfl (fun _ => rfl) rfl h

/-- A minus sign needs no blank behind it. -/
theorem Lexed.minus (h : Lexed rest later) : Lexed ('-' :: rest) (.arith .sub :: later) :=
  .single rfl (fun _ => rfl) rfl h

/-- The sign of an assignment needs one, for an equals sign would go on with it. -/
theorem Lexed.gets (h : Lexed rest later) : Lexed ('=' :: ' ' :: rest) (.gets :: later) :=
  .of_read rfl h.space

/-- An operator with a blank behind it is read as itself. -/
theorem Lexed.arith (op : ArithOp) (h : Lexed rest later) :
    Lexed (op.symbol.toList ++ ' ' :: rest) (.arith op :: later) := by
  cases op <;> exact .of_read rfl h.space

theorem Lexed.rel (op : RelOp) (h : Lexed rest later) :
    Lexed (op.symbol.toList ++ ' ' :: rest) (.rel op :: later) := by
  cases op <;> exact .of_read rfl h.space

theorem Lexed.logic (op : LogicOp) (h : Lexed rest later) :
    Lexed (op.symbol.toList ++ ' ' :: rest) (.logic op :: later) := by
  cases op <;> exact .of_read rfl h.space

/-- A negation sign, unless an equality sign makes it another symbol. -/
theorem Lexed.bang (hnext : ∀ c ∈ rest.head?, c ≠ '=') (h : Lexed rest later) :
    Lexed ('!' :: rest) (.bang :: later) := by
  have hread : Item.readSymbol '!' rest = .token .bang ['!'] rest :=
    readSymbol_of_singleKind? rfl fun d hd => pairKind?_eq_none rfl fun _ => hnext d hd
  exact .of_read hread h

end Symbols

/-- In front of a text that stops it, a lexeme is as long as it can be. -/
theorem longest_of_stops {lexeme rest : List Char} (hstop : Stops rest)
    (hsymbol : lexeme ∉ [['<'], ['>'], ['='], ['!'], ['/']]) : Longest lexeme rest where
  word _ := hstop.word
  number _ := hstop.digit
  integer _ := by
    rintro d later rfl
    exact absurd rfl (hstop '.' rfl).2
  operator h := absurd (List.mem_append_left [['/']] h) hsymbol
  slash h := absurd (by simp [h]) hsymbol

/-- A lexeme spells its token, unless it is a symbol that could be extended. -/
theorem spells_of_isLexeme {k : Kind} {lexeme : List Char} (h : IsLexeme k lexeme)
    (hsymbol : lexeme ∉ [['<'], ['>'], ['='], ['!'], ['/']]) : Spells lexeme [k] := by
  intro rest later hstop hrest
  obtain ⟨c, cs, htext, hread⟩ := read_of_fits ⟨h, longest_of_stops hstop hsymbol⟩
  rw [htext]
  exact .of_read hread hrest

/-- Whether a token is neither a name nor a literal, nor the end. -/
def Kind.isSign : Kind → Bool
  | .eof | .name _ | .literal _ => false
  | _ => true

/-- The table of signs has no names and no literals in it. -/
theorem isSign_of_mem_symbols {text : String} {k : Kind} (h : (text, k) ∈ symbols) :
    k.isSign = true := by
  have hall : ∀ entry ∈ symbols, entry.2.isSign = true := by decide
  exact hall _ h

/-- A reserved word is a sign or a truth value. -/
theorem isSign_of_mem_reservedWords {word : String} {k : Kind} (h : (word, k) ∈ reservedWords) :
    k.isSign = true ∨ ∃ b, word = Literal.boolText b ∧ k = .literal (.bool b) := by
  have hall : ∀ entry ∈ reservedWords, entry.2.isSign = true ∨
      ∃ b, entry.1 = Literal.boolText b ∧ entry.2 = .literal (.bool b) := by decide
  exact hall _ h

theorem isWord_of_isLexeme {x : String} {lexeme : List Char} (h : IsLexeme (.name x) lexeme) :
    isWord x.toList = true := by
  cases h with
  | reserved mem => simp [reservedWords] at mem
  | name word free => exact word
  | symbol mem => cases isSign_of_mem_symbols mem

/-- A word spells its kind. -/
theorem spells_word {x : String} (h : isWord x.toList = true) :
    Spells x.toList [Item.wordKind x] := by
  refine spells_of_isLexeme (isLexeme_wordKind h) ?_
  revert h
  cases x.toList with
  | nil => simp [isWord]
  | cons c cs =>
      intro h
      simp only [isWord, Bool.and_eq_true] at h
      exact not_symbol_of_isWordChar (isWordChar_of_isWordStart h.1) cs

end Pseudocode
