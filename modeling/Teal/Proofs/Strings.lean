import Mathlib.Algebra.Group.Nat.Even
import Mathlib.Data.List.DropRight
import Teal.Expr.Spelling
import Teal.Proofs.Spacing

/-!
# String literals

A string literal is read twice. The lexer looks for the quote that closes it: a flag says whether
the character before was a backslash that escapes the next one. The parser takes the quotes off what
the lexer found and resolves backslashes in pairs with what follows them. Both walk over the same
characters in the same steps, so what is written of a text is found as a whole and is read as that
text, whatever its backslashes, quotes and line breaks are, and wherever the literal stands.

The flag is the parity of the run of backslashes that was walked over. So of the quotes of a literal
after the first one, the last is the one with an even number of backslashes before it.

## Main definitions

* `Text.Escapes`: the ways of writing a text between quotes.
* `Text.slashes`: the backslashes at the end of a text.
* `Token.Reached`: the places at which the lexer stands between two lexemes.

## Main statements

* `Text.Escapes.unescape_eq`, `Lexeme.read_inQuotes`: the two readings of what is written of a text.
* `Lexeme.closing_of_stringLength`: which quote closes a string.
* `Token.Reached.scan_eq`: what the lexer has emitted where it stands, and what it goes on with.
* `Token.exists_reached`: a token is read at a place where the lexer stands.
* `Source.strings_denote`: a string literal stands for the text that it is written of.
-/

namespace Teal

open Text (byteSize)

/-! ## Writing a text between quotes -/

namespace Text

/-- The characters that have an escape, with the character that stands for each after a
backslash. -/
def marks : List (Char × Char) :=
  [('\\', '\\'), ('"', '"'), ('\n', 'n'), ('\t', 't'), ('\r', 'r')]

/-- The ways of writing a text between quotes. Backslashes and quotes are escaped, and so is any
choice of its line feeds, tabs and carriage returns. -/
inductive Escapes : (text body : List Char) → Prop
  | nil : Escapes [] []
  | plain {c text body} : c ≠ '\\' → c ≠ '"' → Escapes text body → Escapes (c :: text) (c :: body)
  | mark {c code text body} : (c, code) ∈ marks → Escapes text body →
    Escapes (c :: text) ('\\' :: code :: body)

def inQuotes (body : List Char) : List Char :=
  '"' :: (body ++ ['"'])

/-- How many backslashes a text ends with. -/
def slashes (text : List Char) : Nat :=
  (text.rtakeWhile (· = '\\')).length

section Escapes

variable {text body rest : List Char} {c code : Char}

/-- Every text can be written. -/
theorem exists_escapes (text : List Char) : ∃ body, Escapes text body := by
  induction text with
  | nil => exact ⟨[], .nil⟩
  | cons c text ih =>
    obtain ⟨body, hbody⟩ := ih
    by_cases hslash : c = '\\'
    · subst hslash
      exact ⟨'\\' :: '\\' :: body, .mark (by decide) hbody⟩
    by_cases hquote : c = '"'
    · subst hquote
      exact ⟨'\\' :: '"' :: body, .mark (by decide) hbody⟩
    · exact ⟨_, .plain hslash hquote hbody⟩

theorem unescape_cons (hc : c ≠ '\\') : unescape (c :: rest) = c :: unescape rest := by
  rw [unescape]
  · exact fun h => absurd h hc
  · exact fun _ _ h => absurd h hc

theorem unescape_mark (h : (c, code) ∈ marks) :
    unescape ('\\' :: code :: rest) = c :: unescape rest := by
  simp only [marks, List.mem_cons, Prod.mk.injEq, List.not_mem_nil, or_false] at h
  obtain ⟨rfl, rfl⟩ | ⟨rfl, rfl⟩ | ⟨rfl, rfl⟩ | ⟨rfl, rfl⟩ | ⟨rfl, rfl⟩ := h <;> rfl

/-- What is written of a text is read as the text. -/
theorem Escapes.unescape_eq (h : Escapes text body) : unescape body = text := by
  induction h with
  | nil => rfl
  | plain hslash _ _ ih => rw [unescape_cons hslash, ih]
  | mark hmark _ ih => rw [unescape_mark hmark, ih]

theorem stripQuotes_inQuotes (body : List Char) : stripQuotes (inQuotes body) = body := by
  simp [stripQuotes, inQuotes]

/-- The closing quote is one character more than what stands before it. -/
theorem take_closed (body after : List Char) :
    (body ++ '"' :: after).take (body.length + 1) = body ++ ['"'] := by
  simp [List.take_length_add_append]

theorem drop_closed (body after : List Char) :
    (body ++ '"' :: after).drop (body.length + 1) = after := by
  simp [List.drop_length_add_append]

theorem Escapes.unquote_eq (h : Escapes text body) :
    unquote (String.ofList (inQuotes body)) = String.ofList text := by
  rw [unquote, String.toList_ofList, stripQuotes_inQuotes, h.unescape_eq]

end Escapes

/-- A backslash adds to those at the end of a text, and any other character ends their run. -/
theorem slashes_concat (text : List Char) (c : Char) :
    slashes (text ++ [c]) = if c = '\\' then slashes text + 1 else 0 := by
  by_cases hc : c = '\\' <;> simp [slashes, hc]

end Text

/-! ## Finding the closing quote -/

namespace Lexeme

open Text (Escapes inQuotes slashes)

/-- The first quote after what is written of a text is the one that closes it. -/
theorem stringLength_escapes {text body : List Char} (h : Escapes text body) (after : List Char) :
    stringLength false (body ++ '"' :: after) = some (body.length + 1) := by
  induction h with
  | nil => simp [stringLength]
  | plain hslash hquote _ ih => simp [stringLength, hslash, hquote, ih]
  | mark _ _ ih => simp [stringLength, ih]

/-- What is written of a text is one lexeme. -/
theorem read_inQuotes {text body : List Char} (h : Escapes text body) (afterOperand : Bool)
    (after : List Char) :
    read afterOperand '"' (body ++ '"' :: after) = verbatim .string (inQuotes body) := by
  have hlength := stringLength_escapes h after
  rw [read_quote, readString, List.drop_one, List.tail_cons, hlength]
  dsimp only
  rw [List.take_succ_cons, Text.take_closed, inQuotes]

/-- The lexer's flag is the parity of the backslashes that it has `seen` just before. So the quote
it stops at is the first with an even number of backslashes before it. -/
theorem closing_of_stringLength {escaped : Bool} {rest : List Char} {n : Nat}
    (h : stringLength escaped rest = some n) (seen : List Char)
    (hseen : escaped = true ↔ ¬ Even (slashes seen)) :
    ∃ body after, rest = body ++ '"' :: after ∧ n = body.length + 1 ∧
      ∀ front back, body ++ ['"'] = front ++ '"' :: back →
        (Even (slashes (seen ++ front)) ↔ back = []) := by
  fun_induction stringLength escaped rest generalizing n seen with
  | case1 => cases h
  | case2 c rest ih =>
    obtain ⟨m, hm, rfl⟩ := Option.map_eq_some_iff.mp h
    have hodd : ¬ Even (slashes seen) := hseen.mp rfl
    obtain ⟨body, after, rfl, rfl, hclosing⟩ := ih hm (seen ++ [c]) (by
      rw [Text.slashes_concat]
      split <;> simp [Nat.even_add_one, hodd])
    refine ⟨c :: body, after, rfl, rfl, fun front back heq => ?_⟩
    cases front with
    | nil =>
      -- an escaped quote is not the last one
      have hback : back ≠ [] := by
        rintro rfl
        simp at heq
      simp [hodd, hback]
    | cons d front =>
      simp only [List.cons_append, List.cons.injEq] at heq
      obtain ⟨rfl, heq⟩ := heq
      simpa using hclosing front back heq
  | case3 rest =>
    cases h
    have heven : Even (slashes seen) := by simpa using hseen
    refine ⟨[], rest, rfl, rfl, fun front back heq => ?_⟩
    cases front with
    | nil => simpa [heven] using heq
    | cons d front => simp at heq
  | case4 c rest hquote ih =>
    obtain ⟨m, hm, rfl⟩ := Option.map_eq_some_iff.mp h
    have heven : Even (slashes seen) := by simpa using hseen
    obtain ⟨body, after, rfl, rfl, hclosing⟩ := ih hm (seen ++ [c]) (by
      rw [Text.slashes_concat]
      by_cases hslash : c = '\\' <;> simp [Nat.even_add_one, heven, hslash])
    refine ⟨c :: body, after, rfl, rfl, fun front back heq => ?_⟩
    cases front with
    | nil => exact absurd (List.cons.inj heq).1 hquote
    | cons d front =>
      simp only [List.cons_append, List.cons.injEq] at heq
      obtain ⟨rfl, heq⟩ := heq
      simpa using hclosing front back heq

theorem ofMark?_ne_string (c : Char) : Token.Kind.ofMark? c ≠ some .string := by
  intro h
  exact absurd (ofMark?_inline h).1 (by decide)

/-- The only lexemes that are strings begin with a quote. -/
theorem readString_of_read {afterOperand : Bool} {c : Char} {rest value : List Char} {n : Nat}
    (h : read afterOperand c rest = .token .string value n) :
    c = '"' ∧ readString ('"' :: rest) = .token .string value n := by
  revert h
  fun_cases read afterOperand c rest <;> intro h
  case case10 hc =>
    subst hc
    exact ⟨rfl, h⟩
  case case3 =>
    unfold readComment at h
    split at h <;> cases h
  case case4 =>
    exact absurd (kind_of_readTag h) (by decide)
  case case6 hc word =>
    obtain ⟨hkind, -, -⟩ := Lexeme.token.inj h
    exact absurd (ofWord_inline (String.ofList word)) (by simp [hkind])
  case case12 =>
    unfold readMark at h
    split at h
    case h_1 | h_2 | h_3 => cases h
    case h_4 =>
      split at h
      · next hkind =>
        obtain ⟨rfl, -, -⟩ := Lexeme.token.inj h
        exact absurd hkind (ofMark?_ne_string c)
      · cases h
  all_goals cases h

/-- Of a string that was read, the last quote is the one with an even number of backslashes before
it, the first one aside. -/
theorem closing_of_read {afterOperand : Bool} {c : Char} {rest value : List Char} {n : Nat}
    (h : read afterOperand c rest = .token .string value n) :
    ∃ body after, c :: rest = inQuotes body ++ after ∧ value = inQuotes body ∧
      ∀ front back, body ++ ['"'] = front ++ '"' :: back → (Even (slashes front) ↔ back = []) := by
  obtain ⟨rfl, hstring⟩ := readString_of_read h
  clear h
  unfold readString at hstring
  split at hstring
  · next m hm =>
    rw [List.drop_one, List.tail_cons] at hm
    obtain ⟨-, rfl, -⟩ := Lexeme.token.inj hstring
    obtain ⟨body, after, rfl, rfl, hclosing⟩ :=
      closing_of_stringLength hm [] (by simp [slashes])
    exact ⟨body, after, by simp [inQuotes],
      by rw [List.take_succ_cons, Text.take_closed, inQuotes], hclosing⟩
  · cases hstring

end Lexeme

/-! ## The places where the lexer stands -/

namespace Token

/-- The places of a text at which the lexer stands between two lexemes: what it has walked over,
whether an operand ends there, the tokens that it has emitted and what remains. -/
inductive Reached (text : List Char) :
    (before : List Char) → (afterOperand : Bool) → List Token → (rest : List Char) → Prop
  | start : Reached text [] false [] text
  | gap {before afterOperand tokens c rest length} :
    Reached text before afterOperand tokens (c :: rest) →
    Lexeme.read afterOperand c rest = .gap length →
    Reached text (before ++ c :: rest.take (length - 1)) afterOperand tokens
      (rest.drop (length - 1))
  | token {before afterOperand tokens c rest kind value length} :
    Reached text before afterOperand tokens (c :: rest) →
    Lexeme.read afterOperand c rest = .token kind value length →
    Reached text (before ++ c :: rest.take (length - 1)) kind.endsOperand
      (tokens ++ [⟨kind, String.ofList value, Text.lineAt text (byteSize before), byteSize before⟩])
      (rest.drop (length - 1))

namespace Reached

variable {text before rest : List Char} {afterOperand : Bool} {tokens : List Token}

theorem append_eq (h : Reached text before afterOperand tokens rest) : before ++ rest = text := by
  induction h with
  | start => rfl
  | gap _ _ ih | token _ _ ih => rw [← ih, List.append_assoc, List.cons_append,
      List.take_append_drop]

/-- The place has the offset and the line of what the lexer has walked over. -/
theorem endOf_eq (h : Reached text before afterOperand tokens rest) :
    Cursor.endOf before = ⟨byteSize before, Text.lineAt text (byteSize before)⟩ := by
  rw [← h.append_eq, Text.lineAt_byteSize]
  rfl

/-- The tokens of a text are those that the lexer has emitted and those that it still reads. -/
theorem scan_eq (h : Reached text before afterOperand tokens rest) :
    scan text = (tokens ++ (scanFrom 0 afterOperand (.endOf before) rest).1,
      (scanFrom 0 afterOperand (.endOf before) rest).2) := by
  induction h with
  | start => rfl
  | gap hplace hread ih =>
    rw [ih, scanFrom, hread]
    dsimp only
    rw [scanFrom_covered]
  | token hplace hread ih =>
    rw [ih, scanFrom, hread]
    dsimp only
    rw [scanFrom_covered, hplace.endOf_eq, List.append_assoc]
    rfl

/-- From where it stands the lexer walks over what is written of a text and emits one token. -/
theorem inQuotes {string body after : List Char} (hbody : Text.Escapes string body)
    (h : Reached text before afterOperand tokens (Text.inQuotes body ++ after)) :
    Reached text (before ++ Text.inQuotes body) true
      (tokens ++ [⟨.string, String.ofList (Text.inQuotes body),
        Text.lineAt text (byteSize before), byteSize before⟩]) after := by
  have hread := Lexeme.read_inQuotes hbody afterOperand after
  have hrest : Text.inQuotes body ++ after = '"' :: (body ++ '"' :: after) := by
    simp [Text.inQuotes]
  have hlength : (Text.inQuotes body).length - 1 = body.length + 1 := by simp [Text.inQuotes]
  rw [hrest] at h
  have hnext := h.token hread
  rwa [hlength, Text.take_closed, Text.drop_closed] at hnext

end Reached

/-- A token that the lexer still reads is read at a place where it will stand. -/
theorem exists_reached {text before rest : List Char} {afterOperand : Bool} {tokens : List Token}
    {t : Token} (h : Reached text before afterOperand tokens rest)
    (ht : t ∈ (scanLexemes afterOperand (.endOf before) rest).1) :
    ∃ before afterOperand tokens c rest value length,
      Reached text before afterOperand tokens (c :: rest) ∧
      Lexeme.read afterOperand c rest = .token t.kind value length ∧
      t.value = String.ofList value ∧ t.index = byteSize before := by
  generalize hcursor : Cursor.endOf before = cursor at ht
  fun_induction scanLexemes afterOperand cursor rest generalizing before tokens
  case case1 | case4 => simp at ht
  case case2 afterOperand cursor c rest length hread covered ih =>
    subst hcursor
    exact ih (h.gap hread) (Cursor.after_endOf (Lexeme.filler_of_read hread).2 before).symm ht
  case case3 afterOperand cursor c rest kind value length hread covered later fault hscan ih =>
    subst hcursor
    rcases List.mem_cons.mp ht with rfl | ht
    · exact ⟨before, afterOperand, tokens, c, rest, value, length, h, hread, rfl, rfl⟩
    · rw [hscan] at ih
      exact ih (h.token hread) (Cursor.after_endOf (Lexeme.spelled_of_read hread).2 before).symm ht

end Token

namespace Source

/-- String literals stand for any text. Every text can be written between quotes, with a choice of
what is escaped in it. Wherever the lexer stands before what is written, it emits one string token
with these characters and goes on right after them, and the parser reads that token as the text. And
every string token has its characters where the lexer stood: of their quotes after the first, the
last one has an even number of backslashes before it, and no other one has. -/
theorem strings_denote :
    (∀ string, ∃ body, Text.Escapes string body) ∧
    (∀ (source : Source) (before after string body : List Char) (afterOperand : Bool)
        (tokens : List Token), Text.Escapes string body →
      Token.Reached source.text.toList before afterOperand tokens (Text.inQuotes body ++ after) →
      ∃ t : Token, t.kind = .string ∧ t.value = String.ofList (Text.inQuotes body) ∧
        t.index = byteSize before ∧ t.line = Text.lineAt source.text.toList (byteSize before) ∧
        Token.Reached source.text.toList (before ++ Text.inQuotes body) true (tokens ++ [t]) after ∧
        source.lex.tokens = tokens ++
          t :: (Token.scanFrom 0 true (.endOf (before ++ Text.inQuotes body)) after).1 ∧
        Text.unquote t.value = String.ofList string) ∧
    (∀ (source : Source), ∀ t ∈ source.lex.tokens, t.kind = .string →
      ∃ before afterOperand tokens body after,
        Token.Reached source.text.toList before afterOperand tokens (Text.inQuotes body ++ after) ∧
        t.value = String.ofList (Text.inQuotes body) ∧ t.index = byteSize before ∧
        ∀ front back, body ++ ['"'] = front ++ '"' :: back →
          (Even (Text.slashes front) ↔ back = [])) := by
  refine ⟨Text.exists_escapes, ?_, ?_⟩
  · intro source before after string body afterOperand tokens hbody hplace
    have hnext := hplace.inQuotes hbody
    refine ⟨_, rfl, rfl, rfl, rfl, hnext, ?_, hbody.unquote_eq⟩
    have htokens : source.lex.tokens = (Token.scan source.text.toList).1 := rfl
    rw [htokens, hnext.scan_eq, List.append_assoc]
    rfl
  · intro source t ht hkind
    rw [lex_eq] at ht
    obtain ⟨before, afterOperand, tokens, c, rest, value, length, hplace, hread, hvalue, hindex⟩ :=
      Token.exists_reached .start ht
    rw [hkind] at hread
    obtain ⟨body, after, htext, rfl, hclosing⟩ := Lexeme.closing_of_read hread
    rw [htext] at hplace
    exact ⟨before, afterOperand, tokens, body, after, hplace, hvalue, hindex, hclosing⟩

def adjacent : Source where
  filename := "adjacent.tl"
  text := "\"\\\\\"\"\\\"\n\\\\\""

/-- The two are kept apart: the quote after two backslashes closes, and the one after a single
backslash does not. -/
theorem strings_denote_adjacent : ∃ t u : Token, adjacent.lex.tokens = [t, u] ∧
    Text.unquote t.value = "\\" ∧ Text.unquote u.value = "\"\n\\" := by
  have hfirst : Text.Escapes ['\\'] ['\\', '\\'] := .mark (by decide) .nil
  have hsecond : Text.Escapes ['"', '\n', '\\'] ['\\', '"', '\n', '\\', '\\'] :=
    .mark (by decide) (.plain (by decide) (by decide) (.mark (by decide) .nil))
  obtain ⟨t, -, -, -, -, hplace, -, ht⟩ := strings_denote.2.1 adjacent [] _ _ _ false []
    hfirst .start
  obtain ⟨u, -, -, -, -, -, htokens, hu⟩ := strings_denote.2.1 adjacent _ [] _ _ true [t]
    hsecond hplace
  exact ⟨t, u, htokens, ht, hu⟩

end Source

end Teal
