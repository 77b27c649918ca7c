import Teal.Executable
import Teal.Code.Printer

/-!
# Listings

## Main definitions

* `Executable.listing`: the instructions in order, with a label where a function starts.
-/

namespace Teal.Executable

def labels (exe : Executable) (ip : Nat) : String :=
  String.join ((exe.functions.filter fun entry => entry.2.location = ip).map fun entry =>
    entry.1 ++ ":\n")

def listingLine (exe : Executable) (ip : Nat) (i : Instruction) : String :=
  exe.labels ip ++ "  " ++ Text.padLeft 4 (Nat.repr ip) ++ "  " ++ i.display ++ "\n"

/-- The instructions in order, with a label where a function starts. -/
def listing (exe : Executable) : String :=
  String.join (exe.code.zipIdx.map fun (i, ip) => exe.listingLine ip i)

end Teal.Executable
