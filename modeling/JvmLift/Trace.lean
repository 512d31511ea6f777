import JvmLift.Element.Inspect
import JvmLift.Render

namespace JvmLift.Trace

-- An element as source text, or its structure if it has none.
def describe (e : Element) : String :=
  match Render.Registry.core.element {} e with
  | .ok text => text
  | .error _ => e.inspect

def line (s : State) (what : String) (elements : List Element) : String :=
  "pc " ++ toString s.pc ++ " " ++ what ++ " " ++
    Text.inspectList (elements.map fun e => Text.inspect (describe e))

-- Writes down the stack and the statements after every instruction.
def observer : Observer (List String) :=
  ⟨fun log s =>
    (log ++ [line s "stack" (s.stack.reverse.map (·.element)), line s "statements" s.result], s)⟩

end JvmLift.Trace
