/-!
# Blanks

The characters that count as white space, and texts without those at their ends.

## Main definitions

* `Text.isBlank`: white space of any script.
* `Text.trim`: a text without the blanks at its ends.
-/

namespace Teal.Text

/-- White space: controls that move, spaces of any width and separators of lines and paragraphs. -/
def isBlank (c : Char) : Bool :=
  let n := c.toNat
  (0x09 ≤ n && n ≤ 0x0D) || n = 0x20 || n = 0x85 || n = 0xA0 || n = 0x1680 ||
    (0x2000 ≤ n && n ≤ 0x200A) || n = 0x2028 || n = 0x2029 || n = 0x202F || n = 0x205F ||
    n = 0x3000

def trim (s : String) : String :=
  String.ofList ((s.toList.dropWhile isBlank).reverse.dropWhile isBlank).reverse

end Teal.Text
