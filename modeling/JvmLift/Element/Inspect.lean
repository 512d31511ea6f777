import JvmLift.Decimal.Layout
import JvmLift.Element
import JvmLift.Type.Inspect

namespace JvmLift

namespace Text

-- A record with its fields by name.
def inspectRecord (name : String) (fields : List (String × String)) : String :=
  name ++ " \x7b " ++ ", ".intercalate (fields.map fun (field, value) => field ++ ": " ++ value) ++
    " \x7d"

-- A constructor with one argument.
def inspectTagged (name value : String) : String :=
  name ++ "(" ++ value ++ ")"

def inspectOption (value : Option String) : String :=
  match value with
  | some value => inspectTagged "Some" value
  | none => "None"

end Text

open Text

def MethodDescriptor.inspect (d : MethodDescriptor) : String :=
  inspectRecord "MethodDescriptor"
    [("parameters", inspectList (d.parameters.map JvmType.inspect)),
     ("return_type", d.result.inspect)]

def Constant.inspect : Constant → String
  | .null => "Null"
  | .int value => inspectTagged "Int" (toString value.toInt)
  | .long value => inspectTagged "Long" (toString value.toInt)
  | .float value => inspectTagged "Float" (value.text .source)
  | .double value => inspectTagged "Double" (value.text .source)
  | .boolean value => inspectTagged "Boolean" (if value then "true" else "false")
  | .string text => inspectTagged "String" (Text.inspect text)
  | .classOf ty => inspectTagged "Class" ty.inspect

def LocalRef.inspect (v : LocalRef) : String :=
  inspectRecord "LocalVariableReference"
    [("name", Text.inspect v.name), ("ty", v.ty.inspect), ("index", toString v.slot.toNat)]

def FieldAccess.inspect (f : FieldAccess String) : String :=
  inspectRecord "FieldReference"
    [("target", inspectOption f.target), ("declaring_type", f.owner.inspect),
     ("field_type", f.ty.inspect), ("name", Text.inspect f.name)]

def Call.inspect (c : Call String) : String :=
  inspectRecord "MethodCall"
    [("target_type", c.owner.inspect), ("name", Text.inspect c.name),
     ("signature", c.signature.inspect), ("target", inspectOption c.target),
     ("args", inspectList c.args), ("ty", c.ty.inspect)]

def Lambda.inspect (l : Lambda String) : String :=
  inspectRecord "Lambda"
    [("receiver", inspectOption l.receiver), ("reference_kind", l.kind.name),
     ("functional_interface", l.interface.inspect),
     ("functional_method", Text.inspect l.method),
     ("interface_signature", l.interfaceSignature.inspect),
     ("declaring_class", l.declaring.inspect), ("backing_method", Text.inspect l.backing),
     ("backing_signature", l.backingSignature.inspect),
     ("enclosed_variables", inspectList (l.enclosed.map LocalRef.inspect))]

-- One layer of a tree for a diagnostic, with the texts of the elements below it in place.
def Shape.inspect : Shape String → String
  | .constant value ty => inspectRecord "Constant" [("value", value.inspect), ("ty", ty.inspect)]
  | .localVar v => inspectTagged "Variable" v.inspect
  | .field f => inspectTagged "Field" f.inspect
  | .arrayLoad array index ty =>
    inspectRecord "ArrayLoad" [("array", array), ("index", index), ("ty", ty.inspect)]
  | .binary left op right ty =>
    inspectRecord "BinaryOperator"
      [("left", left), ("op", op.name), ("right", right), ("ty", ty.inspect)]
  | .unary operand op ty =>
    inspectRecord "UnaryOperator" [("operand", operand), ("op", op.name), ("ty", ty.inspect)]
  | .compare left right => inspectRecord "Compare" [("left", left), ("right", right)]
  | .cast value ty => inspectRecord "Cast" [("value", value), ("ty", ty.inspect)]
  | .instanceOf value ty => inspectRecord "InstanceOf" [("value", value), ("ty", ty.inspect)]
  | .increment v delta ty affix =>
    inspectRecord "Increment"
      [("variable", v.inspect), ("delta", toString delta.toInt), ("ty", ty.inspect),
       ("affix", affix.name)]
  | .call c => inspectTagged "MethodCall" c.inspect
  | .allocate ty => inspectRecord "Allocate" [("ty", ty.inspect)]
  | .newInstance ty signature args =>
    inspectRecord "NewInstance"
      [("ty", ty.inspect), ("signature", signature.inspect), ("args", inspectList args)]
  | .newArray ty component length initializers =>
    inspectRecord "NewArray"
      [("ty", ty.inspect), ("component_type", component.inspect), ("length", length),
       ("initializers", inspectList (initializers.map fun (index, value) =>
         inspectRecord "ArrayInitializer" [("index", toString index.toInt), ("value", value)]))]
  | .lambda l => inspectTagged "Lambda" l.inspect
  | .assign slot name ty value =>
    inspectRecord "VariableAssignment"
      [("index", toString slot.toNat), ("name", Text.inspect name), ("ty", ty.inspect),
       ("value", value)]
  | .assignField f value =>
    inspectRecord "FieldAssignment" [("field", f.inspect), ("value", value)]
  | .arrayStore array index value =>
    inspectRecord "ArrayStore" [("array", array), ("index", index), ("value", value)]
  | .ret => "Return"
  | .returnValue value => inspectRecord "ReturnValue" [("value", value)]
  | .branch left op right target =>
    inspectRecord "Branch"
      [("left", left), ("op", op.name), ("right", right), ("target_pc", toString target)]
  | .jump target => inspectRecord "Goto" [("target_pc", toString target)]
  | .throw value => inspectRecord "Throw" [("value", value)]

def Stamp.inspect (stamp : Stamp) : String :=
  inspectRecord "Metadata"
    [("line_number", inspectOption (stamp.line.map fun line => toString line.toNat)),
     ("program_counter", inspectOption (stamp.pc.map toString))]

-- A tree for a diagnostic, without the stamp of its root.
def Element.inspect (e : Element) : String :=
  (e.fold fun shape stamp =>
    let below := (shape.map (·.1)).inspect
    (inspectRecord "Element" [("kind", below), ("meta", stamp.inspect)], below)).2

end JvmLift
