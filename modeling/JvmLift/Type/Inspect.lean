import JvmLift.Text.Inspect
import JvmLift.Type

namespace JvmLift

-- A type as diagnostics spell it.
def JvmType.inspect : JvmType → String
  | .int => "Int"
  | .long => "Long"
  | .float => "Float"
  | .double => "Double"
  | .byte => "Byte"
  | .char => "Char"
  | .short => "Short"
  | .boolean => "Boolean"
  | .void => "Void"
  | .reference name => "Reference(" ++ Text.inspect name ++ ")"
  | .array component => "Array(" ++ component.inspect ++ ")"
  | .null => "Null"

end JvmLift
