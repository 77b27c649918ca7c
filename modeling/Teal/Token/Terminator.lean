import Teal.Token.Lexer

/-!
# Terminators

The parser sees no line breaks. Each line that ends an item, and each side of a closing brace,
gets a terminator instead, unless one stands there already; so `;` is needed only between two
expressions on one line.

## Main definitions

* `Token.needsTerminator`: whether a terminator goes between two tokens.
* `TokenStream.terminate`: the stream as the parser sees it.
-/

namespace Teal

namespace Token

/-- The terminator put after a token has that token's place. -/
def separator (token : Token) : Token :=
  { token with kind := .terminator, value := ";" }

/-- Whether a line end or a closing brace asks for a terminator between two neighbours. -/
def needsTerminator (kind next : Kind) : Bool :=
  (kind = .rightBrace && next ≠ .terminator) ||
  (next = .rightBrace && kind ≠ .terminator) ||
  (next = .lineBreak && kind ≠ .terminator)

/-- The tokens kept of one token: none of a line break or of a repeated terminator. -/
def kept (last : Option Kind) (token : Token) : List Token :=
  match token.kind with
  | .lineBreak => []
  | .terminator => if last = some .terminator then [] else [token]
  | _ => [token]

def lastKind (last : Option Kind) (written : List Token) : Option Kind :=
  (written.getLast?.map Token.kind).or last

def terminated (last : Option Kind) (token : Token) (next : Kind) : List Token :=
  let written := kept last token
  let last := lastKind last written
  if last.any (· ≠ .terminator) && needsTerminator token.kind next then
    written ++ [token.separator]
  else written

/-- Terminates a list of tokens. The end of the input counts as a line break; a stream that
fails has no such end, so the token before the failure stays unwritten. -/
def terminateFrom (fails : Bool) : Option Kind → List Token → List Token
  | _, [] => []
  | last, [token] => if fails then [] else terminated last token .lineBreak
  | last, token :: next :: rest =>
    let written := terminated last token next.kind
    written ++ terminateFrom fails (lastKind last written) (next :: rest)

end Token

def TokenStream.terminate (stream : TokenStream) : TokenStream :=
  { stream with tokens := Token.terminateFrom stream.failure.isSome none stream.tokens }

end Teal
