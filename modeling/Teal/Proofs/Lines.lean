import Mathlib.Data.Prod.Lex
import Mathlib.Order.Bounds.Basic
import Teal.Proofs.Positions

/-!
# Lines and columns of offsets

The line and the column of an offset are found by looking back from it, and the text of its line by
looking both ways. They agree with the lines that a text has when it is split at its line breaks:
the column counts characters of the line with that number, and these fill the bytes from the start
of the line to the character boundary for which the offset stands. A later boundary comes later in
the order of lines and columns, so that line and column tell boundaries apart.

## Main definitions

* `Text.boundary`: the character boundary for which an offset stands.
* `Text.lineStart`: the byte at which a line starts.
* `Text.LineAround`: a line, a column and what is shown of the line belong to a boundary.
* `Text.address`: line and column, ordered by line first.

## Main statements

* `Source.isGreatest_boundary`: the boundary of an offset is the last one up to it.
* `Text.exists_lines`: what precedes a place is whole lines and a part of one.
* `Text.lineAround_boundary`: the line around an offset.
* `Text.address_lt_append`: line and column grow with the text before a place.
* `Source.locations_correspond`: diagnostics and offsets correspond.
-/

namespace Teal

namespace Text

variable {text before after mid : List Char}

/-! ## Boundaries -/

/-- The character boundary for which an offset stands, in bytes. -/
def boundary (text : List Char) (index : Nat) : Nat :=
  byteSize (splitAtByte text index).1

theorem utf8ByteSize_ofList (s : List Char) : (String.ofList s).utf8ByteSize = byteSize s := by
  induction s with
  | nil => rfl
  | cons c rest ih => simp [String.ofList_cons, byteSize, ih]

theorem byteSize_le_of_prefix {s t : List Char} (h : s <+: t) : byteSize s ≤ byteSize t := by
  obtain ⟨rest, rfl⟩ := h
  rw [byteSize_append]
  exact Nat.le_add_right _ _

/-- Of two parts at the start of a text, the one with fewer bytes is the start of the other. -/
theorem prefix_of_byteSize_le {s t : List Char} (hs : s <+: text) (ht : t <+: text)
    (h : byteSize s ≤ byteSize t) : s <+: t := by
  rcases List.prefix_or_prefix_of_prefix hs ht with hst | ⟨rest, rfl⟩
  · exact hst
  · rw [byteSize_append] at h
    cases rest with
    | nil => simp
    | cons c rest =>
      have hpos := byteSize_pos (List.cons_ne_nil c rest)
      omega

theorem splitAtByte_prefix (text : List Char) (index : Nat) :
    (splitAtByte text index).1 <+: text :=
  ⟨_, splitAtByte_append text index⟩

/-- What is cut off before an offset grows with the offset. -/
theorem splitAtByte_mono {i j : Nat} (h : i ≤ j) :
    (splitAtByte text i).1 <+: (splitAtByte text j).1 := by
  induction text generalizing i j with
  | nil => simp [splitAtByte]
  | cons c rest ih =>
    rw [splitAtByte, splitAtByte]
    split
    · next hi =>
      rw [if_pos (Nat.le_trans hi h)]
      exact List.cons_prefix_cons.mpr ⟨rfl, ih (by omega)⟩
    · exact List.nil_prefix

/-- No part at the start of a text that ends up to an offset is longer than what is cut off. -/
theorem prefix_splitAtByte {index : Nat} (hstart : before <+: text)
    (hle : byteSize before ≤ index) : before <+: (splitAtByte text index).1 := by
  obtain ⟨after, rfl⟩ := hstart
  have hcut : (splitAtByte (before ++ after) (byteSize before)).1 <+:
      (splitAtByte (before ++ after) index).1 := splitAtByte_mono hle
  rwa [splitAtByte_byteSize] at hcut

/-- Parts at the start of a text are told apart by their bytes. -/
theorem eq_of_byteSize_eq {s t : List Char} (hs : s <+: text) (ht : t <+: text)
    (h : byteSize s = byteSize t) : s = t := by
  have hst := prefix_of_byteSize_le hs ht h.le
  have hts := prefix_of_byteSize_le ht hs h.ge
  exact hst.eq_of_length_le hts.length_le

/-! ## Lines -/

/-- The byte at which a line starts, lines being counted from zero: it follows the lines before it,
each with its line break. -/
def lineStart (text : List Char) (n : Nat) : Nat :=
  byteSize (((text.splitOn '\n').take n).flatMap (· ++ ['\n']))

/-- A line, a column and what is shown of the line belong to a boundary `b` of a text. The line is
the piece with its number when the text is split at its line breaks, counted from one; the boundary
is within it, and the characters in front of the column fill the bytes from its start to the
boundary. Of the line all is shown but the carriage returns at its end. -/
structure LineAround (text piece : List Char) (b line column : Nat) (shown : List Char) : Prop where
  line_pos : 0 < line
  piece_eq : (text.splitOn '\n')[line - 1]? = some piece
  stands : ∃ front after, text = front ++ (piece ++ after) ∧
    byteSize front = lineStart text (line - 1)
  start_le : lineStart text (line - 1) ≤ b
  le_end : b ≤ lineStart text (line - 1) + byteSize piece
  column_pos : 0 < column
  column_le : column - 1 ≤ piece.length
  fills : lineStart text (line - 1) + byteSize (piece.take (column - 1)) = b
  shown_eq : ∃ n, piece = shown ++ List.replicate n '\r'
  shown_end : shown.getLast? ≠ some '\r'

theorem lastLine_concat (before : List Char) (c : Char) :
    lastLine (before ++ [c]) = if c = '\n' then [] else lastLine before ++ [c] := by
  by_cases hc : c = '\n' <;> simp [lastLine, hc]

theorem not_mem_lastLine (before : List Char) : '\n' ∉ lastLine before := by
  intro h
  simpa using List.mem_takeWhile_imp (List.mem_reverse.mp h)

/-- What precedes a place of a text is whole lines, each with its line break, and a part of one. -/
theorem exists_lines (before : List Char) :
    ∃ whole : List (List Char), before = whole.flatMap (· ++ ['\n']) ++ lastLine before ∧
      ∀ l ∈ whole, '\n' ∉ l := by
  induction before using List.reverseRecOn with
  | nil => exact ⟨[], rfl, by simp⟩
  | append_singleton before c ih =>
    obtain ⟨whole, hbefore, hwhole⟩ := ih
    rw [lastLine_concat]
    split
    · next hc =>
      subst hc
      refine ⟨whole ++ [lastLine before], ?_, ?_⟩
      · simp [← List.append_assoc, ← hbefore]
      · simpa [or_imp, forall_and] using ⟨hwhole, not_mem_lastLine before⟩
    · exact ⟨whole, by rw [← List.append_assoc, ← hbefore], hwhole⟩

theorem count_flatMap_lines {whole : List (List Char)} (h : ∀ l ∈ whole, '\n' ∉ l) :
    (whole.flatMap (· ++ ['\n'])).count '\n' = whole.length := by
  induction whole with
  | nil => rfl
  | cons l whole ih =>
    rw [List.forall_mem_cons] at h
    simp [List.count_eq_zero.mpr h.1, ih h.2]

/-- Splitting finds whole lines again. -/
theorem splitOn_flatMap_lines {whole : List (List Char)} (h : ∀ l ∈ whole, '\n' ∉ l)
    (rest : List Char) :
    (whole.flatMap (· ++ ['\n']) ++ rest).splitOn '\n' = whole ++ rest.splitOn '\n' := by
  induction whole with
  | nil => rfl
  | cons l whole ih =>
    rw [List.forall_mem_cons] at h
    have hcons : (l :: whole).flatMap (· ++ ['\n']) ++ rest =
        l ++ '\n' :: (whole.flatMap (· ++ ['\n']) ++ rest) := by simp
    rw [hcons, List.splitOn_append_cons_self_of_not_mem h.1, ih h.2, List.cons_append]

/-- The first of the pieces of a text is its first line. -/
theorem exists_splitOn_eq (line after : List Char) (h : '\n' ∉ line) :
    ∃ pieces, (line ++ after).splitOn '\n' = (line ++ firstLine after) :: pieces := by
  obtain ⟨rest, hafter, hrest⟩ := Lexeme.exists_firstLine_append after
  have hpiece : '\n' ∉ line ++ firstLine after := by
    simp [h, Lexeme.not_mem_firstLine]
  cases rest with
  | nil =>
    rw [List.append_nil] at hafter
    rw [← hafter] at hpiece ⊢
    exact ⟨[], List.splitOn_eq_singleton hpiece⟩
  | cons c rest =>
    obtain rfl := hrest c rfl
    refine ⟨rest.splitOn '\n', ?_⟩
    rw [← List.splitOn_append_cons_self_of_not_mem hpiece, List.append_assoc, ← hafter]

theorem exists_trimReturns (line : List Char) :
    (∃ n, line = trimReturns line ++ List.replicate n '\r') ∧
      (trimReturns line).getLast? ≠ some '\r' := by
  constructor
  · refine ⟨(line.reverse.takeWhile (· = '\r')).length, ?_⟩
    have hreturns : line.reverse.takeWhile (· = '\r') =
        List.replicate (line.reverse.takeWhile (· = '\r')).length '\r' := by
      refine List.eq_replicate_of_mem fun c hc => ?_
      simpa using List.mem_takeWhile_imp hc
    rw [trimReturns, ← List.reverse_replicate, ← hreturns, ← List.reverse_append,
      List.takeWhile_append_dropWhile, List.reverse_reverse]
  · intro h
    rw [trimReturns, List.getLast?_reverse] at h
    have hstop := List.head?_dropWhile_not (· = '\r') line.reverse
    rw [h] at hstop
    simp at hstop

/-- A text that is cut at a place has whole lines before it, then the line around the place. -/
theorem exists_splitOn_append (before after : List Char) :
    ∃ whole pieces, before = whole.flatMap (· ++ ['\n']) ++ lastLine before ∧
      whole.length = before.count '\n' ∧
      (before ++ after).splitOn '\n' =
        whole ++ (lastLine before ++ firstLine after) :: pieces := by
  obtain ⟨whole, hbefore, hwhole⟩ := exists_lines before
  have hlast := not_mem_lastLine before
  obtain ⟨pieces, hpieces⟩ := exists_splitOn_eq (lastLine before) after hlast
  refine ⟨whole, pieces, hbefore, ?_, ?_⟩
  · conv_rhs => rw [hbefore, List.count_append, count_flatMap_lines hwhole]
    rw [List.count_eq_zero.mpr hlast, Nat.add_zero]
  · conv_lhs => rw [hbefore, List.append_assoc, splitOn_flatMap_lines hwhole, hpieces]

/-- The line around an offset. -/
theorem lineAround_boundary (text : List Char) (index : Nat) :
    ∃ piece, LineAround text piece (boundary text index) (lineAt text index) (columnAt text index)
      (lineTextAt text index) := by
  have htext := splitAtByte_append text index
  simp only [boundary, lineAt, columnAt, lineTextAt]
  generalize (splitAtByte text index).1 = before at htext ⊢
  generalize (splitAtByte text index).2 = after at htext ⊢
  subst htext
  obtain ⟨whole, pieces, hbefore, hcount, hsplit⟩ := exists_splitOn_append before after
  obtain ⟨rest, hafter, -⟩ := Lexeme.exists_firstLine_append after
  obtain ⟨hshown, hend⟩ := exists_trimReturns (lastLine before ++ firstLine after)
  have hstart : lineStart (before ++ after) (before.count '\n') =
      byteSize (whole.flatMap (· ++ ['\n'])) := by
    rw [lineStart, hsplit, ← hcount, List.take_left]
  have hbytes : lineStart (before ++ after) (before.count '\n') + byteSize (lastLine before) =
      byteSize before := by
    rw [hstart, ← byteSize_append, ← hbefore]
  refine ⟨lastLine before ++ firstLine after, ?_⟩
  constructor
  case line_pos | column_pos => exact Nat.succ_pos _
  case piece_eq => simp [hsplit, ← hcount]
  case stands =>
    refine ⟨whole.flatMap (· ++ ['\n']), rest, ?_, hstart.symm⟩
    conv_lhs => rw [hbefore, hafter]
    simp only [List.append_assoc]
  case start_le =>
    rw [Nat.add_sub_cancel]
    omega
  case le_end =>
    rw [Nat.add_sub_cancel, byteSize_append]
    omega
  case column_le => simp
  case fills => simpa using hbytes
  case shown_eq => exact hshown
  case shown_end => exact hend

/-- An offset inside a character of two bytes, on a line that ends with a carriage return. -/
example : let text := "x\r\n\r\né!\r\n".toList
    boundary text 6 = 5 ∧ lineAt text 6 = 3 ∧ columnAt text 6 = 1 ∧
      lineTextAt text 6 = ['é', '!'] := by
  decide

/-! ## The order of lines and columns -/

/-- The line and the column of the end of a text, ordered by line first. -/
def address (before : List Char) : Nat ×ₗ Nat :=
  toLex (before.count '\n' + 1, (lastLine before).length + 1)

theorem address_lt_concat (before : List Char) (c : Char) :
    address before < address (before ++ [c]) := by
  rw [address, address, Prod.Lex.toLex_lt_toLex, lastLine_concat]
  by_cases hc : c = '\n'
  · exact .inl (by simp [hc])
  · exact .inr (by simp [hc])

/-- Line and column grow with the text before a place. -/
theorem address_lt_append (before : List Char) {mid : List Char} (h : mid ≠ []) :
    address before < address (before ++ mid) := by
  induction mid generalizing before with
  | nil => contradiction
  | cons c mid ih =>
    have hstep := address_lt_concat before c
    rw [List.append_cons]
    cases mid with
    | nil => rwa [List.append_nil]
    | cons d mid => exact hstep.trans (ih (before ++ [c]) (List.cons_ne_nil _ _))

theorem address_le_of_prefix {s t : List Char} (h : s <+: t) : address s ≤ address t := by
  obtain ⟨mid, rfl⟩ := h
  by_cases hmid : mid = []
  · simp [hmid]
  · exact (address_lt_append s hmid).le

/-- Line and column tell the places of a text apart. -/
theorem eq_of_address_eq {s t : List Char} (hs : s <+: text) (ht : t <+: text)
    (h : address s = address t) : s = t := by
  have eq_of_start {s t : List Char} (hst : s <+: t) (h : address s = address t) : s = t := by
    obtain ⟨mid, rfl⟩ := hst
    by_contra hne
    have hmid : mid ≠ [] := by
      rintro rfl
      simp at hne
    exact absurd h (address_lt_append s hmid).ne
  rcases List.prefix_or_prefix_of_prefix hs ht with hst | hts
  · exact eq_of_start hst h
  · exact (eq_of_start hts h.symm).symm

theorem address_eq_iff (text : List Char) (i j : Nat) :
    (lineAt text i, columnAt text i) = (lineAt text j, columnAt text j) ↔
      boundary text i = boundary text j := by
  have hi := splitAtByte_prefix text i
  have hj := splitAtByte_prefix text j
  constructor
  · intro h
    exact congrArg byteSize (eq_of_address_eq hi hj (congrArg toLex h))
  · intro h
    have hcut := eq_of_byteSize_eq hi hj h
    simp only [lineAt, columnAt, hcut]

theorem monotone_address (text : List Char) :
    Monotone fun index => toLex (lineAt text index, columnAt text index) :=
  fun _ _ h => address_le_of_prefix (splitAtByte_mono h)

end Text

/-! ## Diagnostics -/

namespace Source

open Text (boundary lineAt columnAt lineTextAt)

/-- The boundaries of characters are the ends of the parts at the start of a text. -/
theorem isValid_iff (source : Source) (b : Nat) : String.Pos.Raw.IsValid source.text ⟨b⟩ ↔
    ∃ before, before <+: source.text.toList ∧ Text.byteSize before = b := by
  rw [String.Pos.Raw.isValid_iff_exists_take_toList]
  simp only [Text.utf8ByteSize_ofList]
  constructor
  · rintro ⟨i, hb⟩
    exact ⟨_, List.take_prefix i _, hb.symm⟩
  · rintro ⟨before, hstart, rfl⟩
    exact ⟨before.length, by rw [← List.prefix_iff_eq_take.mp hstart]⟩

/-- The boundary of an offset is the last one up to it and up to the end of the text. -/
theorem isGreatest_boundary (source : Source) (index : Nat) :
    IsGreatest {b | String.Pos.Raw.IsValid source.text ⟨b⟩ ∧ b ≤ min index source.text.utf8ByteSize}
      (boundary source.text.toList index) := by
  have hsize : source.text.utf8ByteSize = Text.byteSize source.text.toList := by
    rw [← Text.utf8ByteSize_ofList, String.ofList_toList]
  have hcut := Text.splitAtByte_prefix source.text.toList index
  constructor
  · refine ⟨(source.isValid_iff _).mpr ⟨_, hcut, rfl⟩, ?_⟩
    rw [hsize]
    exact le_min (Text.byteSize_splitAtByte_le _ _) (Text.byteSize_le_of_prefix hcut)
  · rintro b ⟨hvalid, hle⟩
    obtain ⟨before, hstart, rfl⟩ := (source.isValid_iff b).mp hvalid
    exact Text.byteSize_le_of_prefix
      (Text.prefix_splitAtByte hstart (hle.trans (Nat.min_le_left _ _)))

/-- Diagnostics and offsets correspond. An offset stands for the last character boundary up to it,
wherever it is; a diagnostic at the offset has the line and the column of this boundary and shows
its line. Offsets have the same line and column just if they stand for the same boundary, and lines
and columns are in the order of the offsets. -/
theorem locations_correspond (source : Source) :
    let text := source.text.toList
    (∀ index message,
      IsGreatest
        {b | String.Pos.Raw.IsValid source.text ⟨b⟩ ∧ b ≤ min index source.text.utf8ByteSize}
        (boundary text index) ∧
      (∃ piece, Text.LineAround text piece (boundary text index) (lineAt text index)
        (columnAt text index) (lineTextAt text index)) ∧
      source.diagnose index message =
        { filename := source.filename, line := lineAt text index, column := columnAt text index,
          sourceLine := String.ofList (lineTextAt text index), message }) ∧
    (∀ i j, (lineAt text i, columnAt text i) = (lineAt text j, columnAt text j) ↔
      boundary text i = boundary text j) ∧
    Monotone fun index => toLex (lineAt text index, columnAt text index) := by
  intro text
  refine ⟨fun index message => ?_, Text.address_eq_iff text, Text.monotone_address text⟩
  exact ⟨source.isGreatest_boundary index, Text.lineAround_boundary text index, rfl⟩

end Source

end Teal
