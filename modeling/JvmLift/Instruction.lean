import JvmLift.Instruction.Arithmetic
import JvmLift.Instruction.Array
import JvmLift.Instruction.Boolean
import JvmLift.Instruction.Call
import JvmLift.Instruction.CallSite
import JvmLift.Instruction.Jump
import JvmLift.Instruction.Local
import JvmLift.Instruction.Object
import JvmLift.Instruction.Shuffle

namespace JvmLift

-- The rules of the whole instruction set.
def Instruction.rules : List Declaration :=
  Literal.rules ++ Local.rules ++ Array.rules ++ Object.rules ++ Call.rules ++
    Arithmetic.rules ++ Shuffle.rules ++ Jump.rules ++ Boolean.rules ++ CallSite.rules

def Registry.core : Registry :=
  ofDeclarations Instruction.rules

end JvmLift
