import Teal.Code

/-!
# Executables

A linked program: one sequence of instructions, and where each function starts in it.

## Main definitions

* `FunctionEntry`, `Executable`: a function's entry, and a program.
* `Executable.function?`, `Executable.instruction?`: look up an entry and an instruction.
-/

namespace Teal

structure FunctionEntry where
  location : Nat
  params : List String
  tag : Option String := none
deriving DecidableEq, Repr

structure Executable where
  functions : Table String FunctionEntry := []
  code : List Instruction := []

namespace Executable

def function? (exe : Executable) (name : String) : Option FunctionEntry :=
  exe.functions.get? name

def instruction? (exe : Executable) (ip : Nat) : Option Instruction :=
  exe.code[ip]?

end Executable

end Teal
