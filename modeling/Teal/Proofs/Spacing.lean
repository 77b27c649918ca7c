import Teal.Proofs.Positions
import Teal.Proofs.Rendering

/-!
# Tokens are read again

What the lexer reads at a place depends on what stands before it and on what follows. But of what
stands before it only counts whether an operand ends there, and of what follows nothing counts that
is kept apart by a blank or a comment. So a token that was read is read again from its own
characters, and the tokens of a text are read again from every text that has them in the same
order, with any blanks and comments between them.

## Main definitions

* `Token.spelling`: the characters that write a token.
* `Lexeme.Apart`: what keeps a token apart from the next one.
* `Lexeme.Rereads`: a token is read from its own characters.
* `Token.Spaced`: a text of tokens that are kept apart.
* `Token.write`: tokens with a blank after each.

## Main statements

* `Lexeme.rereads_of_read`: what was read once can be read again.
* `Token.scanLexemes_trivia`: blanks and comments are skipped.
* `Token.Spaced.scanLexemes`: tokens that are kept apart are read one after the other.
* `Source.lex_respaced`: other blanks and comments do not change the tokens of a source unit.
-/

namespace Teal

namespace Token

/-- The characters that write a token of some kind and value. A tag is written in its brackets, and
with the line break that ends it. -/
def Kind.spell (kind : Kind) (value : List Char) : List Char :=
  if kind = .tag then '#' :: '[' :: (value ++ [']', '\n']) else value

def spelling (t : Token) : List Char :=
  t.kind.spell t.value.toList

end Token

namespace Lexeme

/-- What a token of some kind is kept apart from the next one by: a blank, or a comment, unless its
slash would follow another one. At the end of the text nothing is needed. -/
def Apart (kind : Token.Kind) (after : List Char) : Prop :=
  ∀ c ∈ after.head?, isBlank c ∨ c = '/' ∧ kind ≠ .slash

/-- A token can be read again: it is read from its own characters, if it is kept apart from what
follows. -/
def Rereads (afterOperand : Bool) (kind : Token.Kind) (value : List Char) : Prop :=
  ∃ c tail, kind.spell value = c :: tail ∧ ∀ after, Apart kind after →
    read afterOperand c (tail ++ after) = .token kind value (tail.length + 1)

section Apart

variable {after rest : List Char} {test : Char → Bool} {c : Char} {afterOperand : Bool}
  {kind : Token.Kind}

theorem isBlank_cases (h : isBlank c = true) : c = ' ' ∨ c = '\t' ∨ c = '\r' := by
  simpa [isBlank, or_assoc] using h

theorem Apart.cases (h : Apart kind after) : after = [] ∨ ∃ c rest, after = c :: rest ∧
    (c = ' ' ∨ c = '\t' ∨ c = '\r' ∨ c = '/' ∧ kind ≠ .slash) := by
  cases after with
  | nil => exact .inl rfl
  | cons c rest =>
    have := h c rfl
    refine .inr ⟨c, rest, rfl, ?_⟩
    grind [isBlank_cases]

/-- A run of characters ends where the token is kept apart from what follows. -/
theorem Apart.takeWhile (h : Apart kind after)
    (htest : [' ', '\t', '\r', '/'].any test = false) :
    (rest.takeWhile test ++ after).takeWhile test = rest.takeWhile test := by
  rw [List.takeWhile_append_of_pos fun c hc => List.mem_takeWhile_imp hc]
  obtain rfl | ⟨c, rest, rfl, hc⟩ := h.cases
  · simp
  · simp [List.any_eq_false.mp htest c (by grind)]

/-! ### Reading a token by its first character -/

theorem read_lineBreak : read afterOperand '\n' rest =
    verbatim .lineBreak ('\n' :: rest.takeWhile (· = '\n')) := by
  simp [read, isBlank]

theorem read_terminator : read afterOperand ';' rest =
    verbatim .terminator (';' :: rest.takeWhile (· = ';')) := by
  simp [read, isBlank, isNameStart]

theorem read_quote : read afterOperand '"' rest = readString ('"' :: rest) := by
  simp [read, isBlank, isNameStart]

theorem read_tag : read afterOperand '#' ('[' :: rest) = readTag ('#' :: '[' :: rest) := by
  simp [read, isBlank, Lexeme.nextIs]

theorem ne_of_test {test : Char → Bool} {d : Char} (h : test c = true) (hd : test d = false) :
    c ≠ d := by
  rintro rfl
  cases h.symm.trans hd

/-- A character that passes a test is no blank if no blank does. -/
theorem isBlank_of_test {test : Char → Bool} (h : test c = true)
    (htest : [' ', '\t', '\r'].all fun d => !test d) : isBlank c = false := by
  have hne (d : Char) (hd : d ∈ [' ', '\t', '\r']) : c ≠ d :=
    ne_of_test h (by simpa using List.all_eq_true.mp htest d hd)
  simp [isBlank, hne ' ' (by simp), hne '\t' (by simp), hne '\r' (by simp)]

theorem read_word (h : isNameStart c = true) : read afterOperand c rest =
    verbatim (.ofWord (String.ofList (c :: rest.takeWhile isNamePart)))
      (c :: rest.takeWhile isNamePart) := by
  have hne {d : Char} (hd : isNameStart d = false) : c ≠ d := ne_of_test h hd
  simp [read, isBlank_of_test h (by decide), hne (d := '/') (by decide),
    hne (d := '#') (by decide), hne (d := '\n') (by decide), h]

theorem read_symbol (h : Lexeme.nextIs Char.isLower rest = true) : read afterOperand ':' rest =
    verbatim .symbol (':' :: rest.takeWhile isSymbolPart) := by
  simp [read, isBlank, isNameStart, h]

theorem isNameStart_of_isDigit (h : c.isDigit = true) : isNameStart c = false := by
  have hlower : c.isLower = false := by
    change (c.val ≥ 'a'.val && c.val ≤ 'z'.val) = false
    simp only [Char.isDigit] at h
    grind
  have hscore : c ≠ '_' := by
    rintro rfl
    cases h
  simp [isNameStart, hlower, hscore]

theorem read_number (h : c.isDigit = true) : read afterOperand c rest =
    verbatim .number (c :: rest.takeWhile isNumberPart) := by
  have hne {d : Char} (hd : d.isDigit = false) : c ≠ d := ne_of_test h hd
  simp [read, isBlank_of_test h (by decide), hne (d := '/') (by decide),
    hne (d := '#') (by decide), hne (d := '\n') (by decide), hne (d := ':') (by decide),
    isNameStart_of_isDigit h, h]

theorem read_signed (hc : c = '+' ∨ c = '-') (h : Lexeme.nextIs Char.isDigit rest = true) :
    read false c rest = verbatim .number (c :: rest.takeWhile isNumberPart) := by
  rcases hc with rfl | rfl
  · simp [read, isBlank, isNameStart, h]
  · simp [read, isBlank, isNameStart, h]

theorem Apart.nextIs (h : Apart kind after) (htest : [' ', '\t', '\r', '/'].any test = false) :
    Lexeme.nextIs test after = false := by
  obtain rfl | ⟨c, rest, rfl, hc⟩ := h.cases
  · rfl
  · simp [Lexeme.nextIs, List.any_eq_false.mp htest c (by grind)]

theorem Apart.head?_ne (hafter : Apart kind after) (h : Token.Kind.ofMark? c = some kind) :
    after.head? ≠ some c := by
  intro hc
  rcases hafter c hc with hblank | ⟨rfl, hslash⟩
  · obtain rfl | rfl | rfl := isBlank_cases hblank <;> cases h
  · exact hslash (Option.some.inj h).symm

/-- A mark is only doubled by what follows. -/
theorem readMark_of_head?_ne (h : Token.Kind.ofMark? c = some kind)
    (hnext : after.head? ≠ some c) : readMark c after = verbatim kind [c] := by
  unfold readMark
  split
  case h_1 | h_2 | h_3 => exact absurd rfl hnext
  case h_4 => rw [h]

theorem read_eq_readMark (h : Token.Kind.ofMark? c = some kind) (hafter : Apart kind after) :
    read afterOperand c after = readMark c after := by
  have hnext := hafter.head?_ne h
  have hstar : Lexeme.nextIs (· = '*') after = false := hafter.nextIs (by decide)
  have hlower : Lexeme.nextIs Char.isLower after = false := hafter.nextIs (by decide)
  have hdigit : Lexeme.nextIs Char.isDigit after = false := hafter.nextIs (by decide)
  unfold Token.Kind.ofMark? at h
  split at h
  case h_4 =>
    -- a slash is kept apart from another one, which a comment would begin with
    have hslash : Lexeme.nextIs (· = '/') after = false := by
      cases after with
      | nil => rfl
      | cons d rest => simpa [Lexeme.nextIs] using hnext
    simp [read, isBlank, isNameStart, hslash, hstar]
  all_goals cases h <;> simp [read, isBlank, isNameStart, hlower, hdigit]

/-- An operator or a bracket stands for itself if it is kept apart from what follows. -/
theorem read_mark (h : Token.Kind.ofMark? c = some kind) (hafter : Apart kind after) :
    read afterOperand c after = verbatim kind [c] :=
  (read_eq_readMark h hafter).trans (readMark_of_head?_ne h (hafter.head?_ne h))

theorem read_doubled
    (h : (c, kind) ∈ [('&', Token.Kind.and), ('|', .or), ('=', .equal)]) :
    read afterOperand c (c :: rest) = verbatim kind [c, c] := by
  simp only [List.mem_cons, Prod.mk.injEq, List.not_mem_nil, or_false] at h
  obtain ⟨rfl, rfl⟩ | ⟨rfl, rfl⟩ | ⟨rfl, rfl⟩ := h <;>
    simp [read, isBlank, isNameStart, Lexeme.nextIs, readMark]

end Apart

/-! ### Reading a token again -/

section Rereads

variable {after rest value : List Char} {test : Char → Bool} {c : Char} {afterOperand : Bool}
  {kind : Token.Kind} {n : Nat}

/-- A token that covers its value only needs to be read from it. -/
theorem rereads_of_verbatim {tail : List Char} (hkind : kind ≠ .tag)
    (h : ∀ after, Apart kind after →
      read afterOperand c (tail ++ after) = verbatim kind (c :: tail)) :
    Rereads afterOperand kind (c :: tail) :=
  ⟨c, tail, if_neg hkind, h⟩

/-- So does a token that goes on for as long as characters pass a test. -/
theorem rereads_run (hkind : kind ≠ .tag)
    (htest : [' ', '\t', '\r', '/'].any test = false)
    (h : ∀ rest', read afterOperand c (rest.takeWhile test ++ rest') =
      verbatim kind (c :: (rest.takeWhile test ++ rest').takeWhile test)) :
    Rereads afterOperand kind (c :: rest.takeWhile test) := by
  refine rereads_of_verbatim hkind fun after hafter => ?_
  rw [h, hafter.takeWhile htest]

/-- What follows the closing quote of a string is not looked at. -/
theorem stringLength_take {escaped : Bool} (h : stringLength escaped rest = some n)
    (after : List Char) :
    n ≤ rest.length ∧ stringLength escaped (rest.take n ++ after) = some n := by
  fun_induction stringLength escaped rest generalizing n with
  | case1 => cases h
  | case2 c rest ih =>
    obtain ⟨m, hm, rfl⟩ := Option.map_eq_some_iff.mp h
    obtain ⟨hle, hread⟩ := ih hm
    exact ⟨Nat.succ_le_succ hle, by simp [stringLength, hread]⟩
  | case3 rest =>
    cases h
    exact ⟨Nat.le_add_left .., by simp [stringLength]⟩
  | case4 c rest hquote ih =>
    obtain ⟨m, hm, rfl⟩ := Option.map_eq_some_iff.mp h
    obtain ⟨hle, hread⟩ := ih hm
    exact ⟨Nat.succ_le_succ hle, by simp [stringLength, hquote, hread]⟩

theorem rereads_string (h : readString ('"' :: rest) = .token kind value n) :
    Rereads afterOperand kind value := by
  unfold readString at h
  split at h
  · next m hm =>
    cases h
    rw [List.drop_one, List.tail_cons] at hm
    rw [List.take_succ_cons]
    refine rereads_of_verbatim (by decide) fun after _ => ?_
    obtain ⟨hle, hread⟩ := stringLength_take hm after
    have hlength : (rest.take m).length = m := List.length_take_of_le hle
    rw [read_quote, readString, List.drop_one, List.tail_cons, hread]
    simp [hlength]
  · cases h

/-- The line of a tag ends with its bracket, so nothing is trimmed. -/
theorem readTag_spell (hvalue : '\n' ∉ value) (after : List Char) :
    readTag (Token.Kind.tag.spell value ++ after) =
      .token .tag value (Token.Kind.tag.spell value).length := by
  have hline : Text.firstLine (Token.Kind.tag.spell value ++ after) =
      '#' :: '[' :: (value ++ [']']) := by
    have hrun : (value ++ [']'] ++ '\n' :: after).takeWhile (· ≠ '\n') = value ++ [']'] := by
      rw [List.takeWhile_append_of_pos (by grind)]
      simp
    simpa [Text.firstLine, Token.Kind.spell] using hrun
  have htrim : trimBlanks ('#' :: '[' :: (value ++ [']'])) = '#' :: '[' :: (value ++ [']']) := by
    simp [trimBlanks, isBlank]
  unfold readTag
  rw [hline]
  dsimp only
  rw [htrim, if_pos (by rw [← List.cons_append, ← List.cons_append, List.getLast?_concat])]
  simp [Token.Kind.spell]

theorem kind_of_readTag {text : List Char} (h : readTag text = .token kind value n) :
    kind = .tag := by
  unfold readTag at h
  dsimp only at h
  split at h <;> cases h
  rfl

theorem Spelled.not_mem_of_tag {span : List Char} (h : Spelled .tag value span) : '\n' ∉ value := by
  cases h with
  | verbatim hkind => contradiction
  | tag hvalue => exact hvalue

theorem rereads_tag (hvalue : '\n' ∉ value) : Rereads afterOperand .tag value := by
  refine ⟨'#', '[' :: (value ++ [']', '\n']), rfl, fun after _ => ?_⟩
  rw [List.cons_append, read_tag]
  exact readTag_spell hvalue after

theorem rereads_mark (h : readMark c rest = .token kind value n) :
    Rereads afterOperand kind value := by
  unfold readMark at h
  split at h
  case h_1 | h_2 | h_3 =>
    cases h
    exact rereads_of_verbatim (by decide) fun _ _ => read_doubled (by decide)
  case h_4 =>
    split at h
    · next hkind =>
      cases h
      refine rereads_of_verbatim ?_ fun _ hafter => read_mark hkind hafter
      grind [ofMark?_inline hkind]
    · cases h

/-- A run begins with the character that was looked at before it. -/
theorem nextIs_takeWhile {part : Char → Bool} (h : Lexeme.nextIs test rest = true)
    (hpart : ∀ c, test c = true → part c = true) (after : List Char) :
    Lexeme.nextIs test (rest.takeWhile part ++ after) = true := by
  cases rest with
  | nil => cases h
  | cons c rest =>
    have hc : test c = true := by simpa [Lexeme.nextIs] using h
    simp [Lexeme.nextIs, hpart c hc, hc]

/-- A token that was read can be read again. -/
theorem rereads_of_read (h : read afterOperand c rest = .token kind value n) :
    Rereads afterOperand kind value := by
  have hspelled := (spelled_of_read h).1
  revert h
  fun_cases read afterOperand c rest <;> intro h
  case case1 | case2 => cases h
  case case3 =>
    unfold readComment at h
    split at h <;> cases h
  case case4 htag =>
    obtain ⟨tail, rfl, rfl⟩ := exists_cons_of_nextIs htag
    obtain rfl := kind_of_readTag h
    exact rereads_tag hspelled.not_mem_of_tag
  case case5 hc =>
    cases h
    subst hc
    exact rereads_run (by decide) (by decide) fun _ => read_lineBreak
  case case6 hc word =>
    obtain ⟨rfl, rfl, -⟩ := Lexeme.token.inj h
    refine rereads_of_verbatim (by grind [ofWord_inline]) fun after hafter => ?_
    rw [read_word hc, hafter.takeWhile (by decide)]
  case case7 hc =>
    obtain ⟨rfl, hlower⟩ : c = ':' ∧ nextIs Char.isLower rest = true := by simpa using hc
    cases h
    refine rereads_of_verbatim (by decide) fun after hafter => ?_
    have hpart (c : Char) (h : c.isLower = true) : isSymbolPart c = true := by
      have halpha : c.isAlpha = (c.isUpper || c.isLower) := rfl
      simp [isSymbolPart, Char.isAlphanum, halpha, h]
    rw [read_symbol (nextIs_takeWhile hlower hpart after), hafter.takeWhile (by decide)]
  case case8 hc =>
    cases h
    exact rereads_run (by decide) (by decide) fun _ => read_number hc
  case case9 hc =>
    obtain ⟨⟨hsign, rfl⟩, hdigit⟩ : ((c = '+' ∨ c = '-') ∧ afterOperand = false) ∧
        nextIs Char.isDigit rest = true := by simpa using hc
    cases h
    refine rereads_of_verbatim (by decide) fun after hafter => ?_
    have hpart : ∀ c, c.isDigit = true → isNumberPart c = true := by
      simp +contextual [isNumberPart]
    rw [read_signed hsign (nextIs_takeWhile hdigit hpart after), hafter.takeWhile (by decide)]
  case case10 hc =>
    subst hc
    exact rereads_string h
  case case11 hc =>
    cases h
    subst hc
    exact rereads_run (by decide) (by decide) fun _ => read_terminator
  case case12 => exact rereads_mark h

end Rereads

/-! ### Gaps -/

/-- The first mark that closes a comment is found. -/
theorem commentLength_append {body : List Char} (h : ¬ ['*', '/'] <:+: body ++ ['*'])
    (after : List Char) : commentLength (body ++ '*' :: '/' :: after) = some (body.length + 2) := by
  induction body with
  | nil => rfl
  | cons c body ih =>
    have hopen : ∀ rest, c = '*' → body ++ '*' :: '/' :: after ≠ '/' :: rest := by
      rintro rest rfl heq
      cases body with
      | nil => simp at heq
      | cons d body =>
        obtain rfl : d = '/' := (List.cons.inj heq).1
        exact h ⟨[], body ++ ['*'], rfl⟩
    have hbody : ¬ ['*', '/'] <:+: body ++ ['*'] :=
      fun hmark => h (hmark.trans (List.suffix_cons ..).isInfix)
    rw [List.cons_append, commentLength, ih hbody]
    · rfl
    · exact hopen

/-- A blank or a comment is read as such. -/
theorem read_filler {after piece : List Char} (h : Filler after piece) (afterOperand : Bool) :
    ∃ c tail, piece = c :: tail ∧
      read afterOperand c (tail ++ after) = .gap (tail.length + 1) := by
  cases h with
  | @blank c hc => exact ⟨c, [], rfl, by simp [read, hc]⟩
  | @lineComment text htext hafter =>
    have hline : Text.firstLine (text ++ after) = text := by
      rw [Text.firstLine, List.takeWhile_append_of_pos (by grind)]
      cases after with
      | nil => simp
      | cons d after => simp [hafter d rfl]
    refine ⟨'/', '/' :: text, rfl, ?_⟩
    simpa [read, isBlank, Lexeme.nextIs, Text.firstLine] using congrArg List.length hline
  | @blockComment body hbody =>
    refine ⟨'/', '*' :: (body ++ ['*', '/']), rfl, ?_⟩
    have hlength := commentLength_append hbody after
    simp [read, isBlank, Lexeme.nextIs, readComment, hlength]

end Lexeme

namespace Token

inductive Legible : (afterOperand : Bool) → List Token → Prop
  | nil {afterOperand} : Legible afterOperand []
  | cons {afterOperand t tokens} : Lexeme.Rereads afterOperand t.kind t.value.toList →
    Legible t.kind.endsOperand tokens → Legible afterOperand (t :: tokens)

/-- The tokens of a text can be read again. -/
theorem legible_scanLexemes (afterOperand : Bool) (cursor : Cursor) (text : List Char) :
    Legible afterOperand (scanLexemes afterOperand cursor text).1 := by
  fun_induction scanLexemes afterOperand cursor text with
  | case1 | case4 => exact .nil
  | case2 afterOperand cursor c rest length hread covered ih => exact ih
  | case3 afterOperand cursor c rest kind value length hread covered tokens fault hscan ih =>
    rw [hscan] at ih
    exact .cons (by simpa using Lexeme.rereads_of_read hread) ih

/-- A text of tokens that are kept apart, with blanks and comments anywhere between them. -/
inductive Spaced : List Token → List Char → Prop
  | ended {gap} : Lexeme.Trivia [] gap → Spaced [] gap
  | token {t tokens gap rest} : Lexeme.Trivia (t.spelling ++ rest) gap →
    Lexeme.Apart t.kind rest → Spaced tokens rest →
    Spaced (t :: tokens) (gap ++ (t.spelling ++ rest))

/-- Blanks and comments are skipped. -/
theorem scanLexemes_trivia {after gap : List Char} (h : Lexeme.Trivia after gap)
    (afterOperand : Bool) (cursor : Cursor) : ∃ cursor',
      scanLexemes afterOperand cursor (gap ++ after) = scanLexemes afterOperand cursor' after := by
  induction h generalizing cursor with
  | nil => exact ⟨cursor, rfl⟩
  | @cons piece gap hpiece _ ih =>
    obtain ⟨c, tail, rfl, hread⟩ := Lexeme.read_filler hpiece afterOperand
    rw [List.append_assoc, List.cons_append, scanLexemes, hread]
    simpa using ih _

/-- Tokens that can be read again are read from every text in which they are kept apart. -/
theorem Spaced.scanLexemes {tokens : List Token} {text : List Char} (h : Spaced tokens text)
    {afterOperand : Bool} (hlegible : Legible afterOperand tokens) (cursor : Cursor) :
    (scanLexemes afterOperand cursor text).1.map face = tokens.map face ∧
      (scanLexemes afterOperand cursor text).2 = none := by
  induction h generalizing afterOperand cursor with
  | ended hgap =>
    obtain ⟨cursor', hskip⟩ := scanLexemes_trivia hgap afterOperand cursor
    rw [List.append_nil] at hskip
    simp [hskip, Token.scanLexemes]
  | @token t tokens gap rest hgap hapart _ ih =>
    obtain ⟨cursor', hskip⟩ := scanLexemes_trivia hgap afterOperand cursor
    cases hlegible with
    | cons hreads hlegible =>
      obtain ⟨c, tail, hspelling, hread⟩ := hreads
      obtain ⟨htokens, hfault⟩ := ih hlegible
        (cursor'.after (.token t.kind t.value.toList (tail.length + 1)) (c :: tail))
      rw [hskip, spelling, hspelling, List.cons_append, Token.scanLexemes, hread rest hapart]
      simpa [face, htokens] using hfault

def write (tokens : List Token) : String :=
  String.ofList (tokens.flatMap fun t => t.spelling ++ [' '])

theorem Spaced.blank {tokens : List Token} {text : List Char} (h : Spaced tokens text) :
    Spaced tokens (' ' :: text) := by
  cases h with
  | ended hgap => exact .ended (.cons (.blank rfl) hgap)
  | token hgap hapart hrest => exact .token (.cons (.blank rfl) hgap) hapart hrest

/-- Written tokens are kept apart. -/
theorem spaced_write (tokens : List Token) : Spaced tokens (write tokens).toList := by
  rw [write, String.toList_ofList]
  induction tokens with
  | nil => exact .ended .nil
  | cons t tokens ih =>
    rw [List.flatMap_cons, List.append_assoc]
    refine .token .nil (fun c hc => ?_) ih.blank
    cases hc
    exact .inl rfl

end Token

namespace Source

/-- If the tokens of a source unit are all read, then the same tokens are read from every text in
which they are kept apart by blanks or comments, whatever these are: so are their kinds and values,
and a sign is or is not part of the number after it as before. One such text has the characters of
each token and a blank. -/
theorem lex_respaced {source : Source} {tokens : List Token}
    (h : source.lex.toExcept = .ok tokens) :
    (∀ filename, ∃ again, (Source.mk filename (Token.write tokens)).lex.toExcept = .ok again ∧
      again.map Token.face = tokens.map Token.face) ∧
    ∀ other : Source, Token.Spaced tokens other.text.toList →
      ∃ again, other.lex.toExcept = .ok again ∧ again.map Token.face = tokens.map Token.face := by
  have hlegible : Token.Legible false tokens := by
    rw [lex_eq, TokenStream.toExcept] at h
    split at h
    · cases h
      exact Token.legible_scanLexemes false .start source.text.toList
    · cases h
  have hspaced (other : Source) (htext : Token.Spaced tokens other.text.toList) :
      ∃ again, other.lex.toExcept = .ok again ∧ again.map Token.face = tokens.map Token.face := by
    obtain ⟨htokens, hfault⟩ := htext.scanLexemes hlegible .start
    exact ⟨_, by rw [lex_eq, TokenStream.toExcept, hfault]; rfl, htokens⟩
  exact ⟨fun filename => hspaced _ (Token.spaced_write tokens), hspaced⟩

def signs : Source where
  filename := "signs.tl"
  text := "#[pure] \t\nfn f(x) \x7b\n  x -1/* - */- -2 :a:+3 \"\\\"\" == // +\n\x7d"

/-- The signs are the same when all is written with one blank. -/
theorem lex_respaced_signs : ∃ tokens, signs.lex.toExcept = .ok tokens ∧
    Token.write tokens = "#[pure]\n fn f ( x ) \x7b \n x - 1 - -2 :a : +3 \"\\\"\" == \n \x7d " ∧
    ∃ again, (Source.mk "" (Token.write tokens)).lex.toExcept = .ok again ∧
      again.map Token.face = tokens.map Token.face := by
  have hread : signs.lex.toExcept = .ok signs.lex.tokens := by decide +kernel
  exact ⟨_, hread, by decide +kernel, (lex_respaced hread).1 ""⟩

end Source

end Teal
