/-!
# Positions in a text

A place in a text is given by a byte offset into its UTF-8 form. An offset past the end stands
for the end, and one inside a character for the start of that character, so every offset has a
line, a column and a line of text.

## Main definitions

* `Text.splitAtByte`: the text before and after an offset.
* `Text.lineAt`, `Text.columnAt`, `Text.lineTextAt`: the line and column of an offset, both
  counted from one, and the text of its line.
-/

namespace Teal.Text

def byteSize : List Char → Nat
  | [] => 0
  | c :: rest => c.utf8Size + byteSize rest

/-- Cuts a text at the last character boundary that is at most `index` bytes in. -/
def splitAtByte : List Char → Nat → List Char × List Char
  | [], _ => ([], [])
  | c :: rest, index =>
    if c.utf8Size ≤ index then
      let (before, after) := splitAtByte rest (index - c.utf8Size)
      (c :: before, after)
    else ([], c :: rest)

def lastLine (before : List Char) : List Char :=
  (before.reverse.takeWhile (· ≠ '\n')).reverse

def firstLine (after : List Char) : List Char :=
  after.takeWhile (· ≠ '\n')

def trimReturns (line : List Char) : List Char :=
  (line.reverse.dropWhile (· = '\r')).reverse

/-- The line of an offset: one more than the line breaks before it. -/
def lineAt (text : List Char) (index : Nat) : Nat :=
  (splitAtByte text index).1.count '\n' + 1

/-- The column of an offset: one more than the characters between it and the line's start. -/
def columnAt (text : List Char) (index : Nat) : Nat :=
  (lastLine (splitAtByte text index).1).length + 1

/-- The whole line around an offset, without its line break and trailing carriage returns. -/
def lineTextAt (text : List Char) (index : Nat) : List Char :=
  let (before, after) := splitAtByte text index
  trimReturns (lastLine before ++ firstLine after)

/-- Cutting a text loses nothing. -/
theorem splitAtByte_append (text : List Char) (index : Nat) :
    (splitAtByte text index).1 ++ (splitAtByte text index).2 = text := by
  induction text generalizing index with
  | nil => rfl
  | cons c rest ih =>
    rw [splitAtByte]
    split
    · simpa using ih (index - c.utf8Size)
    · rfl

/-- The first part of a cut is no longer than the offset asks. -/
theorem byteSize_splitAtByte_le (text : List Char) (index : Nat) :
    byteSize (splitAtByte text index).1 ≤ index := by
  induction text generalizing index with
  | nil => exact Nat.zero_le _
  | cons c rest ih =>
    rw [splitAtByte]
    split
    · have := ih (index - c.utf8Size)
      simp only [byteSize] at this ⊢
      omega
    · exact Nat.zero_le _

end Teal.Text
