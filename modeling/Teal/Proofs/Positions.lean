import Mathlib.Data.List.Infix
import Mathlib.Data.List.TakeWhile
import Teal.Proofs.Blame

/-!
# Tokens lie where they say

The lexer loses nothing of a text: the tokens stand in it one after the other, each with its own
characters, and between them are blanks and comments only. A token knows the byte at which it
starts and its line. The line is counted on the way, by as much as the lexeme that was read says,
and it is the line that is found when the line breaks before the token are counted afresh.

## Main definitions

* `Lexeme.Filler`, `Lexeme.Trivia`: what may stand between tokens.
* `Lexeme.Spelled`: the characters of a token of some kind and value.
* `Token.Kind.breaks`: by how much a token moves the count of lines.
* `Token.scanLexemes`: the walk from lexeme to lexeme.
* `Token.Tiling`: tokens with their characters make up a text.

## Main statements

* `Lexeme.fits_read`: what is read at a place stands there.
* `Token.scanLexemes_eq`: the walk from lexeme to lexeme meets the same tokens at the same places.
* `Token.tiling_scanLexemes`: the tokens of a text make it up.
* `Token.Tiling.lineAt_eq`: the line of a token is the line of its offset.
* `Source.lex_tiles`: tokens and errors of a source unit are where they say.
-/

namespace Teal

/-! ## Offsets -/

namespace Text

@[simp] theorem byteSize_append (s t : List Char) :
    byteSize (s ++ t) = byteSize s + byteSize t := by
  induction s with
  | nil => simp [byteSize]
  | cons c rest ih => simp [byteSize, ih, Nat.add_assoc]

theorem byteSize_pos {s : List Char} (h : s ≠ []) : 0 < byteSize s := by
  cases s with
  | nil => contradiction
  | cons c rest => exact Nat.add_pos_left c.utf8Size_pos _

/-- At the offset where a part of a text ends, the text is cut after this part. -/
theorem splitAtByte_byteSize (before after : List Char) :
    splitAtByte (before ++ after) (byteSize before) = (before, after) := by
  induction before with
  | nil =>
    cases after with
    | nil => rfl
    | cons c rest =>
      have hpos := c.utf8Size_pos
      simp [splitAtByte, byteSize, Nat.not_le.mpr hpos]
  | cons c rest ih => simp [splitAtByte, byteSize, ih]

theorem lineAt_byteSize (before after : List Char) :
    lineAt (before ++ after) (byteSize before) = before.count '\n' + 1 := by
  rw [lineAt, splitAtByte_byteSize]

end Text

open Text (byteSize)

namespace Lexeme

/-! ## What stands at a place -/

/-- A blank or a comment, before the text `after`: a comment of a line goes up to the end of the
line, and a block comment up to the first mark that closes it. -/
inductive Filler (after : List Char) : List Char → Prop
  | blank {c} : isBlank c → Filler after [c]
  | lineComment {text} : '\n' ∉ text → (∀ c ∈ after.head?, c = '\n') →
    Filler after ('/' :: '/' :: text)
  | blockComment {body} : ¬ ['*', '/'] <:+: body ++ ['*'] →
    Filler after ('/' :: '*' :: (body ++ ['*', '/']))

inductive Trivia (after : List Char) : List Char → Prop
  | nil : Trivia after []
  | cons {piece gap} : Filler (gap ++ after) piece → Trivia after gap → Trivia after (piece ++ gap)

/-- The characters of a token are those of its value; those of a tag are its value in brackets, the
blanks after it and the line break. -/
inductive Spelled : Token.Kind → (value span : List Char) → Prop
  | verbatim {kind value} : kind ≠ .tag → Spelled kind value value
  | tag {value blanks ending} : '\n' ∉ value → (∀ c ∈ blanks, isBlank c) →
    ending = [] ∨ ending = ['\n'] →
    Spelled .tag value ('#' :: '[' :: (value ++ ']' :: (blanks ++ ending)))

end Lexeme

/-- By how much a token moves the count of lines, given the characters it covers: a run of line
breaks by its length, a string by the breaks in it and a tag by the one that ends its line. -/
def Token.Kind.breaks (covered : List Char) : Token.Kind → Nat
  | .lineBreak => covered.length
  | .string => covered.count '\n'
  | .tag => if covered.getLast? = some '\n' then 1 else 0
  | _ => 0

namespace Lexeme

def breaks (covered : List Char) : Lexeme → Nat
  | .gap _ => if covered.take 2 = ['/', '*'] then covered.count '\n' else 0
  | .token kind .. => kind.breaks covered
  | .problem _ => 0

/-- A lexeme stands at the start of a text: it covers the characters of a gap or of a token, with as
many line breaks as it counts, or the text starts with the character that is reported. -/
def Fits (text : List Char) (lexeme : Lexeme) : Prop :=
  match lexeme with
  | .gap length => ∃ piece after, text = piece ++ after ∧ piece.length = length ∧
    Filler after piece ∧ piece.count '\n' = lexeme.breaks piece
  | .token kind value length => ∃ span after, text = span ++ after ∧ span.length = length ∧
    span ≠ [] ∧ Spelled kind value span ∧ span.count '\n' = lexeme.breaks span
  | .problem what => text.head? = some what.character

section Fits

variable {kind : Token.Kind} {value rest text : List Char} {c : Char}

theorem fits_verbatim (hstart : value <+: text) (hne : value ≠ []) (hkind : kind ≠ .tag)
    (hbreaks : value.count '\n' = kind.breaks value) : (verbatim kind value).Fits text := by
  obtain ⟨after, rfl⟩ := hstart
  exact ⟨value, after, rfl, rfl, hne, .verbatim hkind, hbreaks⟩

/-- Tokens of most kinds have no line break. -/
theorem fits_inline (hstart : value <+: text) (hne : value ≠ [])
    (hkind : kind ∉ [.tag, .lineBreak, .string]) (hvalue : '\n' ∉ value) :
    (verbatim kind value).Fits text := by
  simp only [List.mem_cons, List.not_mem_nil, or_false, not_or] at hkind
  obtain ⟨htag, hbreak, hstring⟩ := hkind
  refine fits_verbatim hstart hne htag ?_
  rw [List.count_eq_zero.mpr hvalue]
  unfold Token.Kind.breaks
  split <;> simp_all

/-- A token that goes on for as long as characters pass a test. -/
theorem fits_run {test : Char → Bool} (hkind : kind ∉ [.tag, .lineBreak, .string]) (hc : c ≠ '\n')
    (htest : test '\n' = false) :
    (verbatim kind (c :: rest.takeWhile test)).Fits (c :: rest) := by
  refine fits_inline (List.cons_prefix_cons.mpr ⟨rfl, List.takeWhile_prefix _⟩) (by simp) hkind ?_
  intro h
  rcases List.mem_cons.mp h with h | h
  · exact hc h.symm
  · simp [List.mem_takeWhile_imp h] at htest

theorem fits_lineBreaks :
    (verbatim .lineBreak ('\n' :: rest.takeWhile (· = '\n'))).Fits ('\n' :: rest) := by
  refine fits_verbatim (List.cons_prefix_cons.mpr ⟨rfl, List.takeWhile_prefix _⟩) (by simp)
    (by decide) ?_
  refine List.count_eq_length.mpr fun x hx => ?_
  rcases List.mem_cons.mp hx with rfl | hx
  · rfl
  · simpa [eq_comm] using List.mem_takeWhile_imp hx

theorem fits_readString (hc : text.head? = some '"') : (readString text).Fits text := by
  unfold readString
  split
  · have hne : text ≠ [] := by
      rintro rfl
      cases hc
    exact fits_verbatim (List.take_prefix _ _) (by simpa using hne) (by decide) rfl
  · exact hc

/-- A comment's text ends with the first closing mark. -/
theorem eq_append_of_commentLength {text : List Char} {n : Nat} (h : commentLength text = some n) :
    ∃ body after, text = body ++ '*' :: '/' :: after ∧ n = body.length + 2 ∧
      ¬ ['*', '/'] <:+: body ++ ['*'] := by
  fun_induction commentLength text generalizing n with
  | case1 => cases h
  | case2 after =>
    cases h
    exact ⟨[], after, rfl, rfl, by decide⟩
  | case3 c rest hopen ih =>
    obtain ⟨m, hm, rfl⟩ := Option.map_eq_some_iff.mp h
    obtain ⟨body, after, rfl, rfl, hbody⟩ := ih hm
    refine ⟨c :: body, after, rfl, rfl, ?_⟩
    rw [List.cons_append, List.infix_cons_iff]
    rintro (hmark | hmark)
    · -- a mark at the start is the other case
      rw [List.cons_prefix_cons] at hmark
      cases body with
      | nil => simp at hmark
      | cons d body =>
        rw [List.cons_append, List.cons_prefix_cons] at hmark
        exact hopen _ hmark.1.symm (by rw [← hmark.2.1]; rfl)
    · exact hbody hmark

theorem fits_readComment (text : List Char) :
    (readComment ('/' :: '*' :: text)).Fits ('/' :: '*' :: text) := by
  unfold readComment
  split
  · next n hn =>
    obtain ⟨body, after, htext, rfl, hbody⟩ := eq_append_of_commentLength hn
    refine ⟨'/' :: '*' :: (body ++ ['*', '/']), after, ?_, by simp, .blockComment hbody, ?_⟩
    · simpa using htext
    · simp [breaks]
  · rfl

/-- A line is what remains of it when its end is trimmed, with blanks after it. -/
theorem exists_trimBlanks_append (line : List Char) :
    ∃ blanks, line = trimBlanks line ++ blanks ∧ ∀ c ∈ blanks, isBlank c := by
  refine ⟨(line.reverse.takeWhile isBlank).reverse, ?_, fun c hc => ?_⟩
  · rw [trimBlanks, ← List.reverse_append, List.takeWhile_append_dropWhile, List.reverse_reverse]
  · exact List.mem_takeWhile_imp (List.mem_reverse.mp hc)

/-- A text goes on after its first line with a line break. -/
theorem exists_firstLine_append (text : List Char) :
    ∃ rest, text = Text.firstLine text ++ rest ∧ ∀ c ∈ rest.head?, c = '\n' := by
  refine ⟨text.dropWhile (· ≠ '\n'), List.takeWhile_append_dropWhile.symm, fun c hc => ?_⟩
  have hstop := List.head?_dropWhile_not (· ≠ '\n') text
  rw [Option.mem_def.mp hc] at hstop
  simpa using hstop

theorem not_mem_firstLine (text : List Char) : '\n' ∉ Text.firstLine text := by
  intro h
  simpa using List.mem_takeWhile_imp h

theorem fits_lineComment (text : List Char) :
    (gap ((Text.firstLine ('/' :: text)).length + 1)).Fits ('/' :: '/' :: text) := by
  have hline : Text.firstLine ('/' :: text) = '/' :: Text.firstLine text := by
    simp [Text.firstLine]
  obtain ⟨after, htext, hafter⟩ := exists_firstLine_append text
  refine ⟨'/' :: '/' :: Text.firstLine text, after, ?_, ?_, ?_, ?_⟩
  · rw [List.cons_append, List.cons_append, ← htext]
  · rw [hline]
    rfl
  · exact .lineComment (not_mem_firstLine text) hafter
  · simp [breaks, List.count_eq_zero.mpr (not_mem_firstLine text)]

/-- The text of a tag ends with a bracket, and blanks may follow to the end of its line. -/
theorem eq_of_trimBlanks {line : List Char}
    (h : (trimBlanks ('#' :: '[' :: line)).getLast? = some ']') :
    ∃ value blanks, trimBlanks ('#' :: '[' :: line) = '#' :: '[' :: (value ++ [']']) ∧
      line = value ++ ']' :: blanks ∧ ∀ c ∈ blanks, isBlank c := by
  obtain ⟨blanks, hline, hblanks⟩ := exists_trimBlanks_append ('#' :: '[' :: line)
  obtain ⟨init, hinit⟩ := List.getLast?_eq_some_iff.mp h
  rw [hinit, List.append_assoc] at hline
  match init with
  | [] => simp at hline
  | [x] => simp at hline
  | x :: y :: value =>
    simp only [List.cons_append, List.cons.injEq] at hline
    obtain ⟨rfl, rfl, hline⟩ := hline
    exact ⟨value, blanks, hinit, by simpa using hline, hblanks⟩

theorem count_breaks_tag {line ending : List Char} (hline : '\n' ∉ line)
    (hending : ending = [] ∨ ending = ['\n']) :
    (line ++ ending).count '\n' = Token.Kind.tag.breaks (line ++ ending) := by
  have hcount := List.count_eq_zero.mpr hline
  rcases hending with rfl | rfl
  · rw [List.append_nil, hcount, Token.Kind.breaks]
    exact (if_neg fun hlast => hline (List.mem_of_getLast? hlast)).symm
  · simp [Token.Kind.breaks, hcount]

theorem fits_readTag (text : List Char) :
    (readTag ('#' :: '[' :: text)).Fits ('#' :: '[' :: text) := by
  have hline : Text.firstLine ('#' :: '[' :: text) = '#' :: '[' :: Text.firstLine text := by
    simp [Text.firstLine]
  have hbreak := not_mem_firstLine text
  obtain ⟨rest, htext, hrest⟩ := exists_firstLine_append text
  unfold readTag
  rw [hline]
  dsimp only
  split
  · next hlast =>
    obtain ⟨value, blanks, hcontent, hvalue, hblanks⟩ := eq_of_trimBlanks hlast
    -- the line break is covered, unless the text ends with the line
    obtain ⟨ending, after, rfl, hending⟩ : ∃ ending after, rest = ending ++ after ∧
        (ending = [] ∧ after = [] ∨ ending = ['\n']) := by
      cases rest with
      | nil => exact ⟨[], [], rfl, .inl ⟨rfl, rfl⟩⟩
      | cons c after => exact ⟨['\n'], after, by simp [hrest c rfl], .inr rfl⟩
    have hlength : (if ('#' :: '[' :: Text.firstLine text).length < ('#' :: '[' :: text).length
        then 1 else 0) = ending.length := by
      have htotal := congrArg List.length htext
      rw [List.length_append, List.length_append] at htotal
      simp only [List.length_cons]
      rcases hending with ⟨rfl, rfl⟩ | rfl
      · exact if_neg (by simp only [List.length_nil] at htotal; omega)
      · rw [if_pos (by simp only [List.length_singleton] at htotal; omega)]
        rfl
    refine ⟨'#' :: '[' :: (value ++ ']' :: (blanks ++ ending)), after, ?_, ?_, by simp, ?_, ?_⟩
    · rw [htext, hvalue]
      simp
    · rw [hlength, hvalue]
      simp only [List.length_cons, List.length_append]
      omega
    · rw [hcontent]
      rw [hvalue, List.mem_append, not_or] at hbreak
      simpa using Spelled.tag hbreak.1 hblanks (hending.imp_left And.left)
    · have hbreak' : '\n' ∉ '#' :: '[' :: Text.firstLine text := by simp [hbreak]
      rw [hvalue] at hbreak'
      simpa [breaks] using count_breaks_tag hbreak' (hending.imp_left And.left)
  · rfl

theorem ofMark?_inline {kind : Token.Kind} {c : Char} (h : Token.Kind.ofMark? c = some kind) :
    kind ∉ [Token.Kind.tag, .lineBreak, .string] ∧ c ≠ '\n' := by
  unfold Token.Kind.ofMark? at h
  split at h <;> cases h <;> decide

theorem ofWord_inline (word : String) :
    Token.Kind.ofWord word ∉ [Token.Kind.tag, .lineBreak, .string] := by
  unfold Token.Kind.ofWord
  split <;> decide

theorem fits_readMark (c : Char) (rest : List Char) : (readMark c rest).Fits (c :: rest) := by
  unfold readMark
  split
  · exact fits_inline ⟨_, rfl⟩ (by simp) (by decide) (by decide)
  · exact fits_inline ⟨_, rfl⟩ (by simp) (by decide) (by decide)
  · exact fits_inline ⟨_, rfl⟩ (by simp) (by decide) (by decide)
  · split
    · next kind hkind =>
      obtain ⟨hinline, hc⟩ := ofMark?_inline hkind
      exact fits_inline ⟨rest, rfl⟩ (by simp) hinline (by simpa [eq_comm] using hc)
    · rfl

theorem exists_cons_of_nextIs {a d : Char} (h : (c = a && nextIs (· = d) rest) = true) :
    ∃ tail, c = a ∧ rest = d :: tail := by
  cases rest with
  | nil => simp [nextIs] at h
  | cons x tail => simpa [nextIs] using h

theorem fits_ite {p : Prop} [Decidable p] {a b : Lexeme} (ha : p → a.Fits text)
    (hb : ¬ p → b.Fits text) : (if p then a else b).Fits text := by
  split
  · exact ha ‹_›
  · exact hb ‹_›

/-- The lexeme that is read at a place of a text stands there. -/
theorem fits_read (afterOperand : Bool) (c : Char) (rest : List Char) :
    (read afterOperand c rest).Fits (c :: rest) := by
  unfold read
  refine fits_ite (fun hblank => ?_) fun _ => ?_
  · have hbreak : c ≠ '\n' := by
      rintro rfl
      exact absurd hblank (by decide)
    exact ⟨[c], rest, rfl, rfl, .blank hblank, by simp [breaks, hbreak]⟩
  refine fits_ite (fun h => ?_) fun _ => ?_
  · obtain ⟨tail, rfl, rfl⟩ := exists_cons_of_nextIs h
    exact fits_lineComment tail
  refine fits_ite (fun h => ?_) fun _ => ?_
  · obtain ⟨tail, rfl, rfl⟩ := exists_cons_of_nextIs h
    exact fits_readComment tail
  refine fits_ite (fun h => ?_) fun _ => ?_
  · obtain ⟨tail, rfl, rfl⟩ := exists_cons_of_nextIs h
    exact fits_readTag tail
  refine fits_ite (fun h => ?_) fun hbreak => ?_
  · subst h
    exact fits_lineBreaks
  -- what begins with another character goes on with characters of one kind
  refine fits_ite (fun _ => fits_run (ofWord_inline _) hbreak (by decide)) fun _ => ?_
  refine fits_ite (fun _ => fits_run (by decide) hbreak (by decide)) fun _ => ?_
  refine fits_ite (fun _ => fits_run (by decide) hbreak (by decide)) fun _ => ?_
  refine fits_ite (fun _ => fits_run (by decide) hbreak (by decide)) fun _ => ?_
  refine fits_ite (fun h => fits_readString (by rw [h, List.head?_cons])) fun _ => ?_
  exact fits_ite (fun _ => fits_run (by decide) hbreak (by decide)) fun _ => fits_readMark c rest

theorem covered_eq {span after : List Char} (hspan : span ≠ [])
    (h : c :: rest = span ++ after) :
    c :: rest.take (span.length - 1) = span ∧ rest.drop (span.length - 1) = after := by
  obtain ⟨d, covered, rfl⟩ := List.exists_cons_of_ne_nil hspan
  rw [List.cons_append, List.cons.injEq] at h
  obtain ⟨rfl, rfl⟩ := h
  simp

/-- A gap that was read. -/
theorem filler_of_read {afterOperand : Bool} {n : Nat} (h : read afterOperand c rest = .gap n) :
    Filler (rest.drop (n - 1)) (c :: rest.take (n - 1)) ∧
      (c :: rest.take (n - 1)).count '\n' = (gap n).breaks (c :: rest.take (n - 1)) := by
  have hfits := fits_read afterOperand c rest
  rw [h] at hfits
  obtain ⟨piece, after, htext, rfl, hfiller, hbreaks⟩ := hfits
  have hne : piece ≠ [] := by
    rintro rfl
    cases hfiller
  obtain ⟨hcovered, hafter⟩ := covered_eq hne htext
  rw [hcovered, hafter]
  exact ⟨hfiller, hbreaks⟩

/-- A token that was read. -/
theorem spelled_of_read {afterOperand : Bool} {n : Nat}
    (h : read afterOperand c rest = .token kind value n) :
    Spelled kind value (c :: rest.take (n - 1)) ∧ (c :: rest.take (n - 1)).count '\n' =
      (token kind value n).breaks (c :: rest.take (n - 1)) := by
  have hfits := fits_read afterOperand c rest
  rw [h] at hfits
  obtain ⟨span, after, htext, rfl, hne, hspelled, hbreaks⟩ := hfits
  obtain ⟨hcovered, -⟩ := covered_eq hne htext
  rw [hcovered]
  exact ⟨hspelled, hbreaks⟩

end Fits

end Lexeme

/-! ## The walk from lexeme to lexeme -/

namespace Cursor

def after (cursor : Cursor) (lexeme : Lexeme) (covered : List Char) : Cursor :=
  ⟨cursor.index + byteSize covered, cursor.line + lexeme.breaks covered⟩

def endOf (before : List Char) : Cursor :=
  ⟨byteSize before, before.count '\n' + 1⟩

theorem next_endOf (before : List Char) (c : Char) :
    (endOf before).next c = endOf (before ++ [c]) := by
  by_cases hc : c = '\n' <;> simp [next, endOf, byteSize, hc]

theorem after_endOf {lexeme : Lexeme} {covered : List Char}
    (h : covered.count '\n' = lexeme.breaks covered) (before : List Char) :
    (endOf before).after lexeme covered = endOf (before ++ covered) := by
  simp only [after, endOf, ← h, Text.byteSize_append, List.count_append]
  rw [Nat.add_right_comm]

end Cursor

namespace Token

/-- Walks from lexeme to lexeme. The place moves on by the whole lexeme that was read, and the count
of lines by as much as its kind says, so no character is looked at again. -/
def scanLexemes (afterOperand : Bool) (cursor : Cursor) :
    List Char → List Token × Option Lexeme.Fault
  | [] => ([], none)
  | c :: rest =>
    match Lexeme.read afterOperand c rest with
    | .gap length =>
      let covered := c :: rest.take (length - 1)
      scanLexemes afterOperand (cursor.after (.gap length) covered) (rest.drop (length - 1))
    | .token kind value length =>
      let covered := c :: rest.take (length - 1)
      let (tokens, fault) :=
        scanLexemes kind.endsOperand (cursor.after (.token kind value length) covered)
          (rest.drop (length - 1))
      (⟨kind, String.ofList value, cursor.line, cursor.index⟩ :: tokens, fault)
    | .problem what => ([], some ⟨what, cursor.index⟩)
termination_by text => text.length
decreasing_by all_goals simp only [List.length_drop, List.length_cons]; omega

/-- The walk over the characters of a lexeme ends where the lexeme does. -/
theorem scanFrom_skip (skip : Nat) (afterOperand : Bool) (before text : List Char) :
    scanFrom skip afterOperand (.endOf before) text =
      scanFrom 0 afterOperand (.endOf (before ++ text.take skip)) (text.drop skip) := by
  induction text generalizing skip before with
  | nil => cases skip <;> simp [scanFrom]
  | cons c rest ih =>
    cases skip with
    | zero => simp
    | succ skip =>
      rw [scanFrom, Cursor.next_endOf, ih, List.append_assoc]
      rfl

/-- The walk over a character and the rest of its lexeme ends where the lexeme does. -/
theorem scanFrom_covered (afterOperand : Bool) (before : List Char) (c : Char) (rest : List Char)
    (length : Nat) :
    scanFrom (length - 1) afterOperand ((Cursor.endOf before).next c) rest =
      scanFrom 0 afterOperand (.endOf (before ++ c :: rest.take (length - 1)))
        (rest.drop (length - 1)) := by
  rw [Cursor.next_endOf, scanFrom_skip, List.append_assoc]
  rfl

/-- The walk from lexeme to lexeme meets the tokens that the walk over the characters meets, at the
same places. -/
theorem scanLexemes_eq (afterOperand : Bool) (before text : List Char) :
    scanLexemes afterOperand (.endOf before) text =
      scanFrom 0 afterOperand (.endOf before) text := by
  generalize hcursor : Cursor.endOf before = cursor
  fun_induction scanLexemes afterOperand cursor text generalizing before with
  | case1 => rfl
  | case2 afterOperand cursor c rest length hread covered ih =>
    subst hcursor
    have hafter := Cursor.after_endOf (Lexeme.filler_of_read hread).2 before
    rw [scanFrom, hread]
    dsimp only
    rw [scanFrom_covered, ih _ hafter.symm, hafter]
  | case3 afterOperand cursor c rest kind value length hread covered tokens fault hscan ih =>
    subst hcursor
    have hafter := Cursor.after_endOf (Lexeme.spelled_of_read hread).2 before
    rw [scanFrom, hread]
    dsimp only
    rw [scanFrom_covered, ← hafter, ← ih _ hafter.symm, hscan]
  | case4 afterOperand cursor c rest what hread =>
    rw [scanFrom, hread]

/-- Tokens with their characters make up a text that follows `before`, with blanks and comments
between them, up to the end of the text or to a place where no token stands. -/
inductive Tiling :
    (before : List Char) → List (Token × List Char) → Option Lexeme.Fault → List Char → Prop
  | ended {before gap} : Lexeme.Trivia [] gap → Tiling before [] none gap
  | failed {before gap bad fault} : Lexeme.Trivia bad gap → fault.index = byteSize (before ++ gap) →
    bad.head? = some fault.problem.character → Tiling before [] (some fault) (gap ++ bad)
  | token {before gap span after t placed fault} : Lexeme.Trivia (span ++ after) gap → span ≠ [] →
    Lexeme.Spelled t.kind t.value.toList span → t.index = byteSize (before ++ gap) →
    t.line = (before ++ gap).count '\n' + 1 →
    Tiling (before ++ (gap ++ span)) placed fault after →
    Tiling before ((t, span) :: placed) fault (gap ++ (span ++ after))

namespace Tiling

variable {before text piece : List Char} {placed : List (Token × List Char)}
  {fault : Option Lexeme.Fault}

/-- What precedes a tiling and is no token belongs to its first gap. -/
theorem cons_filler (hpiece : Lexeme.Filler text piece)
    (h : Tiling (before ++ piece) placed fault text) :
    Tiling before placed fault (piece ++ text) := by
  cases h with
  | ended hgap => exact .ended (.cons (by simpa using hpiece) hgap)
  | failed hgap hindex hbad =>
    rw [← List.append_assoc]
    exact .failed (.cons hpiece hgap) (by simpa using hindex) hbad
  | token hgap hne hspelled hindex hline hrest =>
    rw [← List.append_assoc]
    refine .token (.cons hpiece hgap) hne hspelled (by simpa using hindex) (by simpa using hline) ?_
    simpa using hrest

/-- No token starts before the tiling does. -/
theorem le_index (h : Tiling before placed fault text) :
    ∀ p ∈ placed, byteSize before ≤ p.1.index := by
  induction h with
  | ended | failed => simp
  | token _ _ _ hindex _ _ ih =>
    simp only [Text.byteSize_append] at hindex ih
    refine List.forall_mem_cons.mpr ⟨?_, fun p hp => ?_⟩
    · dsimp only
      omega
    · have := ih p hp
      omega

/-- A token ends before the next one starts. -/
theorem pairwise_le (h : Tiling before placed fault text) :
    placed.Pairwise fun p q => p.1.index + byteSize p.2 ≤ q.1.index := by
  induction h with
  | ended | failed => exact .nil
  | token _ _ _ hindex _ hrest ih =>
    refine .cons (fun q hq => ?_) ih
    have hle := hrest.le_index q hq
    rw [Text.byteSize_append] at hindex
    simp only [Text.byteSize_append] at hle
    dsimp only
    omega

/-- A token has its characters at its offset, and its line is the number of line breaks before. -/
theorem exists_slice (h : Tiling before placed fault text) :
    ∀ p ∈ placed, ∃ front after, before ++ text = front ++ (p.2 ++ after) ∧
      p.1.index = byteSize front ∧ p.1.line = front.count '\n' + 1 ∧ p.2 ≠ [] ∧
      Lexeme.Spelled p.1.kind p.1.value.toList p.2 := by
  induction h with
  | ended | failed => simp
  | @token before gap span after t placed fault _ hne hspelled hindex hline _ ih =>
    refine List.forall_mem_cons.mpr ⟨?_, fun p hp => ?_⟩
    · exact ⟨before ++ gap, after, by rw [List.append_assoc], hindex, hline, hne, hspelled⟩
    · obtain ⟨front, after', heq, hslice⟩ := ih p hp
      exact ⟨front, after', by rw [← heq]; simp, hslice⟩

/-- A token starts before the next one. -/
theorem pairwise_lt (h : Tiling before placed fault text) :
    placed.Pairwise fun p q => p.1.index < q.1.index := by
  refine h.pairwise_le.imp_of_mem fun hp _ hle => ?_
  obtain ⟨_, _, -, -, -, hne, -⟩ := h.exists_slice _ hp
  have hpos := Text.byteSize_pos hne
  omega

/-- The line of a token is the line of its offset. -/
theorem lineAt_eq (h : Tiling [] placed fault text) :
    ∀ p ∈ placed, p.1.line = Text.lineAt text p.1.index := by
  intro p hp
  obtain ⟨front, after, htext, hindex, hline, -, -⟩ := h.exists_slice p hp
  rw [List.nil_append] at htext
  rw [htext, hindex, Text.lineAt_byteSize, hline]

end Tiling

/-- The tokens of the walk from lexeme to lexeme, with the characters they cover, make up the
text. -/
theorem tiling_scanLexemes (afterOperand : Bool) (before text : List Char) :
    ∃ placed, (scanLexemes afterOperand (.endOf before) text).1 = placed.map Prod.fst ∧
      Tiling before placed (scanLexemes afterOperand (.endOf before) text).2 text := by
  generalize hcursor : Cursor.endOf before = cursor
  fun_induction scanLexemes afterOperand cursor text generalizing before with
  | case1 => exact ⟨[], rfl, .ended .nil⟩
  | case2 afterOperand cursor c rest length hread covered ih =>
    subst hcursor
    obtain ⟨hfiller, hbreaks⟩ := Lexeme.filler_of_read hread
    have hafter := Cursor.after_endOf hbreaks before
    obtain ⟨placed, htokens, htiling⟩ := ih (before ++ covered) hafter.symm
    have htiling := htiling.cons_filler hfiller
    rw [List.cons_append, List.take_append_drop] at htiling
    exact ⟨placed, htokens, htiling⟩
  | case3 afterOperand cursor c rest kind value length hread covered tokens fault hscan ih =>
    subst hcursor
    obtain ⟨hspelled, hbreaks⟩ := Lexeme.spelled_of_read hread
    have hafter := Cursor.after_endOf hbreaks before
    obtain ⟨placed, htokens, htiling⟩ := ih (before ++ covered) hafter.symm
    rw [hscan] at htokens htiling
    let t : Token := ⟨kind, String.ofList value, (Cursor.endOf before).line, byteSize before⟩
    have hspelled : Lexeme.Spelled t.kind t.value.toList covered := by simpa [t] using hspelled
    refine ⟨(t, covered) :: placed, congrArg (t :: ·) htokens, ?_⟩
    have htiling := Tiling.token (t := t) .nil (List.cons_ne_nil _ _) hspelled
      (by rw [List.append_nil]) (by rw [List.append_nil]; rfl) htiling
    rwa [List.nil_append, List.cons_append, List.take_append_drop] at htiling
  | case4 afterOperand cursor c rest what hread =>
    subst hcursor
    have hfits := Lexeme.fits_read afterOperand c rest
    rw [hread] at hfits
    exact ⟨[], rfl, .failed .nil (by simp [Cursor.endOf]) hfits⟩

end Token

/-! ## Source units -/

namespace Source

/-- The walk from lexeme to lexeme gives the tokens and the problem of a source unit. -/
theorem lex_eq (source : Source) : source.lex =
    { tokens := (Token.scanLexemes false .start source.text.toList).1
      failure := (Token.scanLexemes false .start source.text.toList).2.map
        (Lexeme.Fault.report source) } := by
  have hscan : Token.scanLexemes false .start source.text.toList = Token.scan source.text.toList :=
    Token.scanLexemes_eq false [] source.text.toList
  rw [hscan]
  rfl

/-- If the tokens of a stream know their lines, so do those of the stream with terminators. -/
theorem line_eq_of_mem_terminate {stream : TokenStream} {lineOf : Nat → Nat}
    (h : ∀ t ∈ stream.tokens, t.line = lineOf t.index) :
    ∀ t ∈ stream.terminate.tokens, t.line = lineOf t.index := by
  intro t ht
  obtain ⟨u, hu, rfl | rfl⟩ := Token.exists_of_mem_terminateFrom ht
  · exact h t hu
  · exact h u hu

/-- The lexer goes from lexeme to lexeme, counting lines by the kind of each, and loses nothing:
its tokens with their characters make up the text, with blanks and comments between them, up to the
end or to the character where no token stands. So tokens start at increasing character boundaries,
none before the one in front of it has ended, and have their characters there; and the line of a
token, be it read or put in as a terminator, is that of its offset. Hence a token that the parser
did not expect is on the line that is reported. -/
theorem lex_tiles (source : Source) :
    let text := source.text.toList
    ∃ (placed : List (Token × List Char)) (fault : Option Lexeme.Fault),
      Token.scanLexemes false .start text = (placed.map Prod.fst, fault) ∧
      source.lex =
        { tokens := placed.map Prod.fst, failure := fault.map (Lexeme.Fault.report source) } ∧
      Token.Tiling [] placed fault text ∧
      placed.Pairwise (fun p q => p.1.index < q.1.index) ∧
      placed.Pairwise (fun p q => p.1.index + byteSize p.2 ≤ q.1.index) ∧
      (∀ p ∈ placed, ∃ before after, text = before ++ (p.2 ++ after) ∧
        p.1.index = byteSize before ∧ Lexeme.Spelled p.1.kind p.1.value.toList p.2) ∧
      (∀ t ∈ source.lex.tokens, t.line = Text.lineAt text t.index) ∧
      (∀ t ∈ source.lex.terminate.tokens, t.line = Text.lineAt text t.index) ∧
      ∀ error expected found loc, source.parse = .error error →
        error = .unexpectedToken expected found loc → found.line = error.diagnostic.line := by
  intro text
  obtain ⟨placed, htokens, htiling⟩ := Token.tiling_scanLexemes false [] text
  have hscan : Token.scanLexemes false .start text =
      (placed.map Prod.fst, (Token.scanLexemes false .start text).2) := Prod.ext htokens rfl
  have hlex := source.lex_eq
  rw [hscan] at hlex
  have hline : ∀ t ∈ source.lex.tokens, t.line = Text.lineAt text t.index := by
    intro t ht
    rw [hlex] at ht
    obtain ⟨p, hp, rfl⟩ := List.mem_map.mp ht
    exact htiling.lineAt_eq p hp
  have hterminated := line_eq_of_mem_terminate hline
  refine ⟨placed, _, hscan, hlex, htiling, htiling.pairwise_lt, htiling.pairwise_le, fun p hp => ?_,
    hline, hterminated, ?_⟩
  · obtain ⟨before, after, htext, hindex, -, -, hspelled⟩ := htiling.exists_slice p hp
    exact ⟨before, after, htext, hindex, hspelled⟩
  · rintro _ expected found loc hparse rfl
    obtain ⟨hfound, rfl⟩ := about_of_parseStream hparse
    exact hterminated found hfound

/-- A parenthesis that belongs nowhere, after a tag, a comment and a string that go over lines. -/
def misplaced : Source where
  filename := "misplaced.tl"
  text := "#[pure] \t\nfn f(x) \x7b\n  /* é\n */ g(\"a\\\n\\\"\", x)\n\n  x )\n\x7d"

/-- The token that the parser did not expect, if it refuses a source unit for one. -/
def unexpected? (source : Source) : Option Token :=
  match source.parse with
  | .error (.unexpectedToken _ found _) => some found
  | _ => none

/-- The parenthesis is on the line that is reported. -/
theorem lex_tiles_misplaced : ∃ error expected found loc, misplaced.parse = .error error ∧
    error = .unexpectedToken expected found loc ∧ found = ⟨.rightParen, ")", 7, 51⟩ ∧
    error.diagnostic.line = 7 := by
  obtain ⟨_, _, -, -, -, -, -, -, -, -, hreported⟩ := lex_tiles misplaced
  have hfound : misplaced.unexpected? = some ⟨.rightParen, ")", 7, 51⟩ := by decide +kernel
  unfold unexpected? at hfound
  split at hfound
  · next expected found loc herror =>
    cases hfound
    exact ⟨_, expected, _, loc, herror, rfl, rfl, (hreported _ _ _ _ herror rfl).symm⟩
  · cases hfound

end Source

end Teal
