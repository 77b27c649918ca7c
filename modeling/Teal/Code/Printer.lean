import Teal.Code
import Teal.Value.Printer

/-!
# Shown instructions

## Main definitions

* `Instruction.display`: an instruction on one line of a listing.
-/

namespace Teal

def Text.padRight (width : Nat) (s : String) : String :=
  s ++ String.ofList (List.replicate (width - s.length) ' ')

def Text.padLeft (width : Nat) (s : String) : String :=
  String.ofList (List.replicate (width - s.length) ' ') ++ s

/-- An opcode in capitals, twelve columns wide, and its operands. -/
def Instruction.display (i : Instruction) : String :=
  Text.padRight 12 (i.op.opcode.name.map Char.toUpper) ++ " " ++
    String.intercalate ", " (i.op.operands.map Value.repr)

end Teal
