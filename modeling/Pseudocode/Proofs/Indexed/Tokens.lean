import Pseudocode.Proofs.Indexed.Lexemes
import Pseudocode.Proofs.Lexical.LongestMatch
import Pseudocode.Proofs.Lexical.Positions

/-!
# Tokens on indices

A scanner on indices never looks out of range and always moves forward. One call for the next token
moves over blanks and comments and then over a lexeme, and answers as the cursor at its place does.
Where a call has stopped, also with a fault, the next one can begin, so this holds of any number of
calls, and the row and the column that are counted on the way are right. Every token but the last
takes a character at least, so the loop over all tokens ends.

## Main definitions

* `Scanner.Skips` — a program that moves over blanks and comments.
* `Scanner.Call` — what one call for the next token does.
* `Scanner.Reached` — the scanners that any number of calls lead to.

## Main statements

* `Scanner.next_call` — one call.
* `Scanner.tokenize_ends` — all tokens of a text.
* `Scanner.Reached.positions` — rows and columns after any number of calls.
* `scanner_stays_in_range` — any number of calls, and all tokens, from the beginning of a text.
-/
namespace Pseudocode.Indexed

open Machine

/-- A cursor in front of a blank or a comment answers as the one behind it. -/
theorem next_of_silent {c : Char} {cs taken rest : List Char} {item : Item}
    (hread : Item.read c cs = ⟨.ok item, taken, rest⟩) (silent : ∀ k, item ≠ .token k)
    (pos : Position) :
    Cursor.next ⟨pos, c :: cs⟩ = Cursor.next ⟨pos.after taken, rest⟩ := by
  have hfound : (Item.read c cs).found = .ok item := by rw [hread]
  rw [Cursor.next_silent hfound silent, Cursor.past, hread]

theorem next_of_blanks (pos : Position) (cs : List Char) :
    Cursor.next ⟨pos, cs⟩ =
      Cursor.next ⟨pos.after (cs.takeWhile Text.isBlank), cs.dropWhile Text.isBlank⟩ := by
  induction cs generalizing pos with
  | nil => rfl
  | cons c cs ih =>
      by_cases hc : Text.isBlank c = true
      · rw [next_of_silent (read_blank hc cs) (by simp), ih, List.takeWhile_cons_of_pos hc,
          List.dropWhile_cons_of_pos hc]
        rfl
      · rw [List.takeWhile_cons_of_neg hc, List.dropWhile_cons_of_neg hc]
        rfl

namespace Scanner

variable {input : List Char} {s : Scanner} {cs : List Char} {depth : Nat}

/-! ## Blanks and comments -/

/-- A scanner moves over blanks up to the first other character. -/
theorem skipBlanks_ends (h : Ahead input s cs) (hdepth : cs.length < depth) :
    Ends (skipBlanks input depth) s (.ok ()) (s.past (cs.takeWhile Text.isBlank)) := by
  induction cs generalizing s depth with
  | nil =>
      obtain ⟨depth, rfl⟩ := Nat.exists_eq_add_one_of_ne_zero (Nat.ne_zero_of_lt hdepth)
      exact (h.peek 0).bind (ends_pure _ _)
  | cons c cs ih =>
      obtain ⟨depth, rfl⟩ := Nat.exists_eq_add_one_of_ne_zero (Nat.ne_zero_of_lt hdepth)
      rw [List.length_cons] at hdepth
      refine (h.peek 0).bind ?_
      simp only [List.getElem?_cons_zero]
      by_cases hc : Text.isBlank c = true
      · rw [if_pos hc, List.takeWhile_cons_of_pos hc, past_cons]
        exact (ends_step c s).bind (ih h.tail (by omega))
      · rw [if_neg hc, List.takeWhile_cons_of_neg hc]
        exact ends_pure _ _

/-- A block comment is closed where its reading says, or the end of the text is reached. -/
theorem closeBlock_ends (opened : Position) (h : Ahead input s cs) (hdepth : cs.length < depth) :
    (∃ inside rest, Item.splitBlock? cs = some (inside, rest) ∧
      Ends (closeBlock input opened depth) s (.ok ()) (s.past inside)) ∨
    (Item.splitBlock? cs = none ∧
      Ends (closeBlock input opened depth) s (.error ⟨.unterminatedComment, opened⟩)
        (s.past cs)) := by
  fun_induction Item.splitBlock? cs generalizing s depth with
  | case1 =>
      obtain ⟨depth, rfl⟩ := Nat.exists_eq_add_one_of_ne_zero (Nat.ne_zero_of_lt hdepth)
      exact .inr ⟨rfl, (h.peek 0).bind (ends_fail _ _)⟩
  | case2 rest =>
      obtain ⟨depth, rfl⟩ := Nat.exists_eq_add_one_of_ne_zero (Nat.ne_zero_of_lt hdepth)
      refine .inl ⟨_, _, rfl, (h.peek 0).bind ((h.peek 1).bind ?_)⟩
      rw [past_cons]
      exact (ends_advance (by decide) s).bind (ends_advance (by decide) _)
  | case3 c rest hopen ih =>
      obtain ⟨depth, rfl⟩ := Nat.exists_eq_add_one_of_ne_zero (Nat.ne_zero_of_lt hdepth)
      rw [List.length_cons] at hdepth
      have hmark : ¬ (c = '*' ∧ rest[0]? = some '/') := by
        rintro ⟨hc, hslash⟩
        obtain ⟨later, rfl⟩ := exists_cons_of_head? hslash
        exact hopen later hc rfl
      have hfront (out : Except LexError Unit) (s' : Scanner)
          (hlater : Ends (closeBlock input opened depth) (s.past [c]) out s') :
          Ends (closeBlock input opened (depth + 1)) s out s' := by
        refine (h.peek 0).bind ((h.peek 1).bind ?_)
        rw [List.getElem?_cons_succ, if_neg hmark]
        exact (ends_step c s).bind hlater
      have hlength : rest.length < depth := by omega
      rcases ih h.tail hlength with ⟨inside, behind, hsplit, hends⟩ | ⟨hsplit, hends⟩
      · refine .inl ⟨c :: inside, behind, by rw [hsplit]; rfl, ?_⟩
        rw [past_cons]
        exact hfront _ _ hends
      · refine .inr ⟨by rw [hsplit]; rfl, ?_⟩
        rw [past_cons]
        exact hfront _ _ hends

/-- A lexeme is ahead, or the end of the text. -/
def AtLexeme (cs : List Char) : Prop :=
  ∀ c later, cs = c :: later → Text.isBlank c = false ∧
    (c = '/' → later.head? ≠ some '/' ∧ later.head? ≠ some '*')

/-- The program moves over blanks and comments up to a lexeme or the end of the text, or it stops
with a fault of a comment. The cursor here answers as the one where the program stops. -/
inductive Skips (m : Scanning Unit) (s : Scanner) : List Char → Prop where
  | past {gap rest : List Char} (lexeme : AtLexeme rest)
      (answer : Cursor.next ⟨s.pos, gap ++ rest⟩ = Cursor.next ⟨s.pos.after gap, rest⟩)
      (ends : Ends m s (.ok ()) (s.past gap)) : Skips m s (gap ++ rest)
  | fault {gap rest : List Char} {e : LexError}
      (answer : Cursor.next ⟨s.pos, gap ++ rest⟩ = (.error e, ⟨s.pos.after gap, rest⟩))
      (ends : Ends m s (.error e) (s.past gap)) : Skips m s (gap ++ rest)

/-- There is nothing to move over. -/
theorem Skips.here {m : Scanning Unit} (lexeme : AtLexeme cs) (ends : Ends m s (.ok ()) s) :
    Skips m s cs :=
  @Skips.past m s [] cs lexeme rfl ends

/-- A look at the text first. -/
theorem Skips.bind {α : Type} {m : Scanning α} {f : α → Scanning Unit} {a : α}
    (hm : Ends m s (.ok a) s) (h : Skips (f a) s cs) : Skips (m >>= f) s cs := by
  cases h with
  | past lexeme answer ends => exact .past lexeme answer (hm.bind ends)
  | fault answer ends => exact .fault answer (hm.bind ends)

/-- A blank or a comment that is moved over first. -/
theorem Skips.behind {front m : Scanning Unit} {gap rest : List Char} (htext : gap ++ rest = cs)
    (hfront : Ends front s (.ok ()) (s.past gap))
    (hanswer : Cursor.next ⟨s.pos, cs⟩ = Cursor.next ⟨s.pos.after gap, rest⟩)
    (h : Skips m (s.past gap) rest) : Skips (do front; m) s cs := by
  subst htext
  cases h with
  | @past later rest lexeme answer ends =>
      rw [← List.append_assoc] at hanswer ⊢
      refine .past lexeme ?_ ?_
      · rw [hanswer, Position.after_append]
        exact answer
      · rw [past_append]
        exact hfront.bind ends
  | @fault later rest e answer ends =>
      rw [← List.append_assoc] at hanswer ⊢
      refine .fault (e := e) ?_ ?_
      · rw [hanswer, Position.after_append]
        exact answer
      · rw [past_append]
        exact hfront.bind ends

section Gaps
variable {m : Scanning Unit}

theorem skips_blanks {c : Char} (hblank : Text.isBlank c = true) (h : Ahead input s (c :: cs))
    (hdepth : cs.length + 1 < depth)
    (hm : ∀ s' rest, Ahead input s' rest → rest.length ≤ cs.length → Skips m s' rest) :
    Skips (do skipBlanks input depth; m) s (c :: cs) := by
  have hrest : ((c :: cs).dropWhile Text.isBlank).length ≤ cs.length := by
    rw [List.dropWhile_cons_of_pos hblank]
    exact (List.dropWhile_suffix _).length_le
  have htext : (c :: cs).takeWhile Text.isBlank ++ (c :: cs).dropWhile Text.isBlank = c :: cs :=
    List.takeWhile_append_dropWhile
  refine .behind htext (skipBlanks_ends h hdepth) (next_of_blanks _ _) (hm _ _ ?_ hrest)
  refine Ahead.past _ ?_
  rwa [htext]

theorem skips_line {later : List Char} (h : Ahead input s ('/' :: '/' :: later))
    (hdepth : later.length + 2 < depth)
    (hm : ∀ s' rest, Ahead input s' rest → rest.length ≤ later.length → Skips m s' rest) :
    Skips (do skipLine input depth; m) s ('/' :: '/' :: later) := by
  have hline : ∀ c, decide (c ≠ '\n') = true → c ≠ '\n' := fun c hc => by simpa using hc
  have htext : '/' :: '/' :: later.takeWhile (· ≠ '\n') ++ later.dropWhile (· ≠ '\n') =
      '/' :: '/' :: later := by simp
  have hread : Item.read '/' ('/' :: later) = Item.readLine later := rfl
  have hends : Ends (skipLine input depth) s (.ok ())
      (s.past ('/' :: '/' :: later.takeWhile (· ≠ '\n'))) :=
    (takeWhile_ends hline h hdepth).bind (ends_pure _ _)
  refine .behind htext hends (next_of_silent hread (by simp) _) (hm _ _ ?_ ?_)
  · refine Ahead.past _ ?_
    rwa [htext]
  · exact (List.dropWhile_suffix _).length_le

theorem skips_block {later : List Char} (h : Ahead input s ('/' :: '*' :: later))
    (hdepth : later.length + 2 < depth)
    (hm : ∀ s' rest, Ahead input s' rest → rest.length ≤ later.length → Skips m s' rest) :
    Skips (do skipBlock input depth; m) s ('/' :: '*' :: later) := by
  have hread : Item.read '/' ('*' :: later) = Item.readBlock later := rfl
  have hlength : later.length < depth := by omega
  have hblock (out : Except LexError Unit) (taken : List Char)
      (hends : Ends (closeBlock input s.pos depth) (s.past ['/', '*']) out
        ((s.past ['/', '*']).past taken)) :
      Ends (skipBlock input depth) s out (s.past ('/' :: '*' :: taken)) := by
    have hplace : Ends place s (.ok s.pos) s := rfl
    have hslash := ends_advance (c := '/') (by decide) s
    have hstar := ends_advance (c := '*') (by decide) (s.past ['/'])
    have htaken : s.past ('/' :: '*' :: taken) = (s.past ['/', '*']).past taken :=
      past_append s ['/', '*'] taken
    rw [htaken]
    exact hplace.bind (hslash.bind (hstar.bind hends))
  rcases closeBlock_ends s.pos (h.past ['/', '*']) hlength with
    ⟨inside, rest, hsplit, hends⟩ | ⟨hsplit, hends⟩
  · have htext : '/' :: '*' :: inside ++ rest = '/' :: '*' :: later := by
      rw [← Item.splitBlock?_append hsplit]
      rfl
    rw [Item.readBlock, hsplit] at hread
    refine .behind htext (hblock _ _ hends) (next_of_silent hread (by simp) _) (hm _ _ ?_ ?_)
    · refine Ahead.past _ ?_
      rwa [htext]
    · rw [← Item.splitBlock?_append hsplit, List.length_append]
      omega
  · have hfound : (Item.read '/' ('*' :: later)).found = .error .unterminatedComment := by
      rw [hread, Item.readBlock, hsplit]
      rfl
    rw [← List.append_nil ('/' :: '*' :: later)]
    refine .fault (e := ⟨.unterminatedComment, s.pos⟩) ?_ (hblock _ _ hends).bind_error
    rw [List.append_nil, Cursor.next_fault hfound, Cursor.past, hread, Item.readBlock, hsplit]
    rfl

end Gaps

/-- A scanner moves over blanks and comments, or stops with the fault of a comment. -/
theorem skipGaps_skips (h : Ahead input s cs) (hdepth : cs.length < depth) :
    Skips (skipGaps input depth) s cs := by
  induction depth generalizing s cs with
  | zero => omega
  | succ depth ih =>
  have hlater (n : Nat) (hn : n < depth) (s' : Scanner) (rest : List Char)
      (hahead : Ahead input s' rest) (hle : rest.length ≤ n) :
      Skips (skipGaps input depth) s' rest := ih hahead (by omega)
  cases cs with
  | nil =>
      have hlexeme : AtLexeme [] := fun c later hcs => by cases hcs
      exact .here hlexeme ((h.peek 0).bind (ends_pure _ _))
  | cons c cs =>
      rw [List.length_cons] at hdepth
      refine .bind (h.peek 0) (.bind (h.peek 1) ?_)
      simp only [List.getElem?_cons_succ]
      by_cases hblank : Text.isBlank c = true
      · rw [if_pos hblank]
        exact skips_blanks hblank h hdepth (hlater _ (by omega))
      rw [if_neg hblank]
      by_cases hline : c = '/' ∧ cs[0]? = some '/'
      · rw [if_pos hline]
        obtain ⟨rfl, hslash⟩ := hline
        obtain ⟨later, rfl⟩ := exists_cons_of_head? hslash
        rw [List.length_cons] at hdepth
        exact skips_line h hdepth (hlater _ (by omega))
      rw [if_neg hline]
      by_cases hblock : c = '/' ∧ cs[0]? = some '*'
      · rw [if_pos hblock]
        obtain ⟨rfl, hstar⟩ := hblock
        obtain ⟨later, rfl⟩ := exists_cons_of_head? hstar
        rw [List.length_cons] at hdepth
        exact skips_block h hdepth (hlater _ (by omega))
      rw [if_neg hblock]
      have hlexeme : AtLexeme (c :: cs) := by
        rintro d later ⟨⟩
        refine ⟨by simpa using hblank, fun hc => ⟨fun hslash => ?_, fun hstar => ?_⟩⟩
        · exact hline ⟨hc, by rwa [← List.head?_eq_getElem?]⟩
        · exact hblock ⟨hc, by rwa [← List.head?_eq_getElem?]⟩
      exact .here hlexeme (ends_pure _ _)

/-! ## One token -/

/-- The cursor at the place of a scanner. -/
def cursor (input : List Char) (s : Scanner) : Cursor := ⟨s.pos, input.drop s.idx⟩

theorem Ahead.cursor_eq (h : Ahead input s cs) : s.cursor input = ⟨s.pos, cs⟩ := by
  rw [cursor, h.drop_eq]

/-- A token is the text from the mark to the index. This is not empty, and the mark is at `start`
or behind it. -/
structure Marked (input : List Char) (start : Nat) (s : Scanner) (t : Token) : Prop where
  le : start ≤ s.first
  lt : s.first < s.idx
  lexeme_eq : t.lexeme.toList = (input.take s.idx).drop s.first

/-- Where no blank and no comment is ahead, the token that begins here is that of the cursor. -/
theorem token_ends (h : Ahead input s cs) (hlexeme : AtLexeme cs) (hdepth : cs.length < depth) :
    ∃ out taken rest, cs = taken ++ rest ∧
      Ends (token input depth) s out (s.marking.past taken) ∧
      Cursor.next ⟨s.pos, cs⟩ = (out, ⟨s.pos.after taken, rest⟩) ∧
      ∀ t, out = .ok t → t.kind ≠ .eof → taken ≠ [] ∧ t.lexeme.toList = taken := by
  have hplace : Ends place s (.ok s.pos) s := rfl
  have hmark : Ends mark s (.ok ()) s.marking := rfl
  have hmore : Ends (hasMore input) s.marking (.ok (decide (s.idx < input.length)))
      s.marking := rfl
  have hfront (f : Position → Bool → Scanning Token) (out : Except LexError Token) (s' : Scanner)
      (hf : Ends (f s.pos (decide (s.idx < input.length))) s.marking out s') :
      Ends (do let pos ← place; mark; let more ← hasMore input; f pos more) s out s' :=
    hplace.bind (hmark.bind (hmore.bind hf))
  have hlength := h.length_eq
  cases cs with
  | nil =>
      have hend : ¬ s.idx < input.length := by simp at hlength; omega
      refine ⟨_, [], [], rfl, hfront _ _ _ ?_, Cursor.next_nil _, ?_⟩
      · simp only [hend, decide_false]
        exact ends_pure _ _
      · rintro t ⟨⟩ heof
        exact absurd rfl heof
  | cons c cs =>
      obtain ⟨hblank, hslash⟩ := hlexeme c cs rfl
      have hin : s.idx < input.length := by simp at hlength; omega
      have hrealizes : Realizes (identify input s.pos depth) s.marking s.pos (Item.read c cs) :=
        identify_realizes h.marking hblank hslash hdepth
      have htext := Item.taken_append_rest c cs
      have hnonempty := @Item.taken_ne_nil c cs
      have hanswer := @Cursor.next_token s.pos c cs
      have hfault := @Cursor.next_fault s.pos c cs
      generalize Item.read c cs = r at hrealizes htext hnonempty hanswer hfault
      cases hrealizes with
      | @token kind taken rest ends =>
          have htaken : taken ++ rest = c :: cs := htext
          rw [← htaken] at h
          refine ⟨_, taken, rest, htaken.symm, hfront _ _ _ ?_, hanswer rfl, ?_⟩
          · simp only [hin, decide_true]
            exact ends.bind (h.lexeme.bind (ends_pure _ _))
          · rintro t ⟨⟩ -
            exact ⟨hnonempty rfl, String.toList_ofList⟩
      | @faulty fault taken rest ends =>
          have htaken : taken ++ rest = c :: cs := htext
          refine ⟨_, taken, rest, htaken.symm, hfront _ _ _ ?_, hfault rfl, ?_⟩
          · simp only [hin, decide_true]
            exact ends.bind_error
          · rintro t ⟨⟩

/-- One call for the next token with the bound `depth`. It ends, so it has not looked out of range;
it answers as the cursor does, and goes forward to where the cursor goes. -/
structure Call (input : List Char) (depth : Nat) (s : Scanner) (out : Except LexError Token)
    (s' : Scanner) : Prop where
  ends : Ends (next input depth) s out s'
  answer : (s.cursor input).next = (out, s'.cursor input)
  forward : s.idx ≤ s'.idx
  mark : s'.first ≤ s'.idx
  inside : s'.idx ≤ input.length
  marked : ∀ t, out = .ok t → t.kind ≠ .eof → Marked input s.idx s' t
  counted : s'.calls = s.calls + 1

/-- A call ends under every bound that is greater than the length of the text ahead. -/
theorem next_call (h : Ahead input s cs) (hfirst : s.first ≤ s.idx) (hdepth : cs.length < depth) :
    ∃ out s', Call input depth s out s' := by
  have hcount : Ends count s (.ok ()) { s with calls := s.calls + 1 } := rfl
  have hcounted : Ahead input { s with calls := s.calls + 1 } cs := ⟨h.le, h.drop_eq⟩
  have hskips := skipGaps_skips hcounted hdepth
  cases hskips with
  | @fault gap rest e answer ends =>
      have hbehind := hcounted.past gap
      refine ⟨.error e, _, hcount.bind ends.bind_error, ?_, ?_, ?_, hbehind.le, ?_, rfl⟩
      · rw [h.cursor_eq, hbehind.cursor_eq]
        exact answer
      · exact Nat.le_add_right _ _
      · exact Nat.le_trans hfirst (Nat.le_add_right _ _)
      · rintro t ⟨⟩
  | @past gap rest lexeme answer ends =>
      have hgap := hcounted.past gap
      have hrest : rest.length < depth := by
        rw [List.length_append] at hdepth
        omega
      obtain ⟨out, taken, later, htext, htoken, hanswer, hlexeme⟩ := token_ends hgap lexeme hrest
      subst htext
      have hbehind := hgap.marking.past taken
      refine ⟨out, _, hcount.bind (ends.bind htoken), ?_, ?_, ?_, hbehind.le, ?_, rfl⟩
      · rw [h.cursor_eq, hbehind.cursor_eq]
        exact answer.trans hanswer
      · simp only [past, marking_idx]
        omega
      · exact Nat.le_add_right _ _
      · intro t ht heof
        obtain ⟨hne, htaken⟩ := hlexeme t ht heof
        refine ⟨Nat.le_add_right _ _, ?_, htaken.trans hgap.slice_eq.symm⟩
        exact Nat.lt_add_of_pos_right (List.length_pos_iff.2 hne)

/-! ## All tokens -/

/-- The tokens ahead of a cursor are the next one and those behind it. -/
theorem tokenize_eq_next (cur : Cursor) :
    cur.tokenize =
      match cur.next with
      | (.error e, _) => .error e
      | (.ok t, behind) =>
        if t.kind = .eof then .ok [t] else behind.tokenize.map (t :: ·) := by
  induction cur using Cursor.next.induct with
  | case1 pos =>
      rw [Cursor.tokenize_nil, Cursor.next_nil]
      rfl
  | case2 pos c cs r fault hfound => rw [Cursor.tokenize_error hfound, Cursor.next_fault hfound]
  | case3 pos c cs r k hfound =>
      have hread : Item.read c cs = .token k r.taken r.rest := by
        rw [Reading.token, ← hfound]
      rw [Cursor.tokenize_token hread, Cursor.next_token hfound]
      exact (if_neg (ne_eof_of_isLexeme (fits_of_read hfound).1)).symm
  | case4 pos c cs r behind item silent hfound ih =>
      have hread : Item.read c cs = ⟨.ok item, r.taken, r.rest⟩ := by rw [← hfound]
      rw [Cursor.tokenize_silent hread silent, Cursor.next_silent hfound silent]
      exact ih

/-- The loop over all tokens ends with those of the cursor, and asks at most once more than
there are characters ahead. -/
theorem tokenize_ends (h : Ahead input s cs) (hfirst : s.first ≤ s.idx)
    (hdepth : cs.length < depth) :
    ∃ s', Ends (tokenize input depth) s (s.cursor input).tokenize s' ∧
      s'.calls ≤ s.calls + cs.length + 1 := by
  induction depth generalizing s cs with
  | zero => omega
  | succ depth ih =>
  obtain ⟨out, s₁, hcall⟩ := next_call h hfirst hdepth
  have hcounted := hcall.counted
  rw [tokenize_eq_next, hcall.answer]
  cases out with
  | error e => exact ⟨s₁, hcall.ends.bind_error, by omega⟩
  | ok t =>
      by_cases heof : t.kind = .eof
      · refine ⟨s₁, hcall.ends.bind ?_, by omega⟩
        simp only [if_pos heof]
        exact ends_pure _ _
      have hmarked := hcall.marked t rfl heof
      have hahead : Ahead input s₁ (input.drop s₁.idx) := ⟨hcall.inside, rfl⟩
      have hshorter : (input.drop s₁.idx).length < cs.length := by
        have hle := hmarked.le
        have hlt := hmarked.lt
        have hbefore := h.length_eq
        have hbehind := hahead.length_eq
        omega
      obtain ⟨s₂, hends, hcalls⟩ := ih hahead hcall.mark (by omega)
      refine ⟨s₂, hcall.ends.bind ?_, by omega⟩
      simp only [if_neg heof]
      exact hends.map _

/-! ## Any number of calls -/

/-- The scanners that a number of calls lead to from the beginning of a text, whatever the calls
gave back. The bound of each call has to be greater than the length of the text. -/
inductive Reached (input : List Char) : Nat → Scanner → Prop where
  | start : Reached input 0 .start
  | call {n : Nat} {s : Scanner} (earlier : Reached input n s) {depth : Nat}
      (enough : input.length < depth) : Reached input (n + 1) (after (next input depth) s)

/-- A scanner that has been reached is in its text and at the place of the cursor. -/
theorem Reached.invariant {source : String} {n : Nat} (h : Reached source.toList n s) :
    s.first ≤ s.idx ∧ Ahead source.toList s (source.toList.drop s.idx) ∧
      s.cursor source.toList = Cursor.afterCalls source n := by
  induction h with
  | start => exact ⟨le_rfl, ⟨Nat.zero_le _, rfl⟩, rfl⟩
  | @call n s earlier depth enough ih =>
      obtain ⟨hfirst, hahead, hcursor⟩ := ih
      have hdepth : (source.toList.drop s.idx).length < depth := by
        rw [List.length_drop]
        omega
      obtain ⟨out, s', hcall⟩ := next_call hahead hfirst hdepth
      rw [hcall.ends.after_eq]
      refine ⟨hcall.mark, ⟨hcall.inside, rfl⟩, ?_⟩
      rw [Cursor.afterCalls, ← hcursor, hcall.answer]

/-- The next call of a scanner that has been reached ends, with the answer of the cursor. -/
theorem Reached.next_call {source : String} {n depth : Nat} (h : Reached source.toList n s)
    (hdepth : source.toList.length < depth) :
    ∃ s', Call source.toList depth s (Cursor.afterCalls source n).next.1 s' := by
  obtain ⟨hfirst, hahead, hcursor⟩ := h.invariant
  have hlength : (source.toList.drop s.idx).length < depth := by
    rw [List.length_drop]
    omega
  obtain ⟨out, s', hcall⟩ := Scanner.next_call hahead hfirst hlength
  refine ⟨s', ?_⟩
  rw [← hcursor, hcall.answer]
  exact hcall

/-- The counters of a scanner that has been reached are those of the text in front of its index. -/
theorem Reached.placed {source : String} {n : Nat} (h : Reached source.toList n s) :
    (s.cursor source.toList).Placed source.toList s.idx := by
  obtain ⟨-, hahead, hcursor⟩ := h.invariant
  obtain ⟨offset, hplaced⟩ := Cursor.exists_placed_afterCalls source n
  rw [← hcursor] at hplaced
  obtain rfl := hplaced.offset_eq hahead.le rfl
  exact hplaced

/-- **The counters kept by hand are right.** After any number of calls, faults included, the row and
the column of a scanner are those that the text in front of its index determines: a row for every
newline, a column for every character behind the last one. What the next call gives back has the
position where it begins; once that is the end of the text, every later call gives back the same. -/
theorem Reached.positions {source : String} {n depth : Nat} (h : Reached source.toList n s)
    (hdepth : source.toList.length < depth) :
    s.pos = .behind (source.toList.take s.idx) ∧
    ∃ out s', Ends (next source.toList depth) s out s' ∧
      s'.pos = .behind (source.toList.take s'.idx) ∧
      Cursor.Answered source.toList s.idx s'.idx out ∧
      ∀ t, out = .ok t → t.kind = .eof → ∀ m later, n ≤ m → Reached source.toList m later →
        ∃ s₂, Ends (next source.toList depth) later out s₂ := by
  obtain ⟨s', hcall⟩ := h.next_call hdepth
  have hbehind : Reached source.toList (n + 1) s' := by
    have hreached := h.call hdepth
    rwa [hcall.ends.after_eq] at hreached
  have hcursor := h.invariant.2.2
  obtain ⟨finish, -, hplaced, hanswered⟩ := h.placed.next
  rw [hcall.answer] at hplaced hanswered
  obtain rfl := hplaced.offset_eq hbehind.placed.le rfl
  refine ⟨h.placed.position, _, s', hcall.ends, hbehind.placed.position, hanswered, ?_⟩
  intro t ht heof m later hle hlater
  obtain ⟨s₂, hends⟩ := hlater.next_call hdepth
  have hsame : (Cursor.afterCalls source m).next.1 = .ok t := by
    have hlast : (Cursor.afterCalls source (n + 1)).Placed source.toList s'.idx := by
      rw [Cursor.afterCalls, ← hcursor, hcall.answer]
      exact hplaced
    rw [ht] at hanswered
    exact Cursor.next_eq_of_eof hlast hanswered heof ht hle
  refine ⟨s₂, ?_⟩
  rw [ht, ← hsame]
  exact hends.ends

end Scanner

open Scanner

/-- **A scanner stays in range and moves forward.** Any number of calls, also behind faults, leads
to a scanner whose next call ends under every bound that is greater than the length of the text: no
character and no lexeme is looked up out of range. The call answers as the cursor does, the index
does not go back, and a token that is not the end of the text is the non-empty text behind the mark.
So the loop over all tokens ends too, with at most one call more than the text has characters. -/
theorem scanner_stays_in_range (source : String) :
    (∀ n s, Reached source.toList n s → ∀ depth, source.toList.length < depth →
      ∃ s', Call source.toList depth s (Cursor.afterCalls source n).next.1 s') ∧
    ∀ depth, source.toList.length < depth →
      ∃ s', Ends (Scanner.tokenize source.toList depth) .start (Pseudocode.tokenize source) s' ∧
        s'.calls ≤ source.toList.length + 1 := by
  constructor
  · intro n s h depth hdepth
    exact h.next_call hdepth
  · intro depth hdepth
    have hahead : Ahead source.toList .start source.toList := ⟨Nat.zero_le _, rfl⟩
    obtain ⟨s', hends, hcalls⟩ := tokenize_ends hahead le_rfl hdepth
    refine ⟨s', hends, ?_⟩
    have hzero : Scanner.start.calls = 0 := rfl
    omega

/-- Behind a lone sign a scanner stays where it is, and can be asked again. -/
theorem lone_sign_stays_in_range :
    (∃ s', Call "&".toList 2 (after (next "&".toList 2) .start)
      (.error ⟨.unexpectedCharacter '&', ⟨1, 1⟩⟩) s') ∧
    ∃ s', Ends (Scanner.tokenize "&".toList 2) .start
      (.error ⟨.unexpectedCharacter '&', ⟨1, 1⟩⟩) s' ∧ s'.calls ≤ 2 := by
  have hnext : (Cursor.afterCalls "&" 1).next.1 = .error ⟨.unexpectedCharacter '&', ⟨1, 1⟩⟩ := by
    decide +kernel
  have htokens : Pseudocode.tokenize "&" = .error ⟨.unexpectedCharacter '&', ⟨1, 1⟩⟩ := by
    decide +kernel
  have hreached : Reached "&".toList 1 (after (next "&".toList 2) .start) :=
    .call .start (by decide)
  rw [← hnext, ← htokens]
  exact ⟨(scanner_stays_in_range "&").1 1 _ hreached 2 (by decide),
    (scanner_stays_in_range "&").2 2 (by decide)⟩

end Pseudocode.Indexed
