import JvmLift.Element.Shape
import JvmLift.Opcode
import JvmLift.Type.Inspect

namespace JvmLift

-- The classes of faults.
inductive FaultKind where
  -- the code does not have the shape that its instructions call for
  | format
  -- an operation that the state does not allow
  | illegalState
  -- something that the method does not declare
  | unresolved
  -- the code is at its end
  | endOfStream
deriving DecidableEq

-- Why a method cannot be decompiled.
inductive Fault where
  | endOfCode
  | unreadable (reason : String)
  | truncated (code : Opcode) (pc : Nat)
  | unsupported (code : Opcode) (pc : Nat)
  | unsupportedWide (code : Opcode)
  | classFile (e : ClassFileError)
  | constantCategory (value : Loadable) (index : UInt16) (expected : Nat)
  | badClassName (name : String)
  | fieldDescriptor (text : String)
  | arrayCode (code : UInt8)
  | notAnArray (ty : JvmType)
  | initializerIndex
  | zeroArgumentCount
  | allocationWithoutDup (ty : JvmType) (next : Opcode)
  | stackShape (code : Opcode) (pc : Nat) (categories : List Nat)
  | returnType (code : Opcode) (ty : JvmType)
  | negativeTarget (pc : Nat) (target : Int)
  | bootstrapArguments (site : UInt16) (count : Nat)
  | captureCount (site : UInt16) (captured enclosed : Nat)
  | capturedValue (kind : Kind)
  | recipe
  | recipeArguments
  | recipeConstants
  | popEmpty
  | popMany (count size : Nat)
  | peekEmpty
  | insertOffset (offset : Int) (size : Nat)
  | notStatement (kind : Kind)
  | noStatementAt (index count : Nat)
  | noStatement
  | notComparison (op : BinaryOp)
  | unexpected (expected : String)
  | unfinished (kind : Kind) (pc : Option Nat)
  | noLocal (slot : UInt16) (pc : Nat) (className method : String)
  | noBootstrapMethod (index site : UInt16)
  | noMethodWithLine (className method : String) (line : UInt16)
  | noLine (line : UInt16) (className method : String)
  -- a fault that a rule from outside declares
  | declared (kind : FaultKind) (text : String)
deriving DecidableEq

namespace Fault

def kind : Fault → FaultKind
  | endOfCode => .endOfStream
  | classFile (.badIndex ..) => .unresolved
  | noLocal .. | noBootstrapMethod .. | noMethodWithLine .. | noLine .. => .unresolved
  | popEmpty | popMany .. | peekEmpty | insertOffset .. | notStatement .. | noStatementAt ..
  | noStatement | notComparison .. | unexpected .. | unfinished .. => .illegalState
  | declared kind _ => kind
  | _ => .format

-- What went wrong, without the class of the fault.
def detail : Fault → String
  | endOfCode => ""
  | unreadable reason => "failed to read code: " ++ reason
  | truncated code pc => "truncated " ++ Opcode.mnemonic code ++ " at pc " ++ toString pc
  | unsupported code pc =>
    "unsupported instruction " ++ Opcode.mnemonic code ++ " at pc " ++ toString pc
  | unsupportedWide code => "unsupported wide instruction " ++ Opcode.mnemonic code
  | classFile e => e.message
  | constantCategory value index expected =>
    "constant " ++ value.text ++ " at index " ++ toString index.toNat ++ " has category "
      ++ toString value.category ++ ", expected " ++ toString expected
  | badClassName name => "malformed class name " ++ Text.inspect name
  | fieldDescriptor text => "malformed field descriptor " ++ Text.inspect text
  | arrayCode code => "invalid primitive array type " ++ toString code.toNat
  | notAnArray ty => "aaload from non-array type " ++ ty.inspect
  | initializerIndex => "array initializer index is not a constant"
  | zeroArgumentCount => "invokeinterface with an argument count of zero"
  | allocationWithoutDup ty next =>
    "expected dup after new " ++ ty.inspect ++ ", found " ++ Opcode.mnemonic next
  | stackShape code pc categories =>
    Opcode.mnemonic code ++ " at pc " ++ toString pc ++ " does not accept a stack of categories "
      ++ Text.inspectList (categories.map toString) ++ " (top first)"
  | returnType code ty =>
    Opcode.mnemonic code ++ " cannot return a value of type " ++ ty.inspect
  | negativeTarget pc target =>
    "jump at pc " ++ toString pc ++ " to negative offset " ++ toString target
  | bootstrapArguments site count =>
    "call site " ++ toString site.toNat ++ " has " ++ toString count
      ++ " bootstrap arguments, expected 3"
  | captureCount site captured enclosed =>
    "call site " ++ toString site.toNat ++ " captures " ++ toString captured ++ " values for "
      ++ toString enclosed ++ " enclosed variables"
  | capturedValue kind => "lambda captures a " ++ kind.name ++ " instead of a variable"
  | recipe => "string concatenation recipe is not a string"
  | recipeArguments => "concatenation recipe has too many arguments"
  | recipeConstants => "concatenation recipe has too many constants"
  | popEmpty => "pop from an empty stack"
  | popMany count size =>
    "cannot pop " ++ toString count ++ " expressions from a stack of " ++ toString size
  | peekEmpty => "peek at an empty stack"
  | insertOffset offset size =>
    "cannot insert at offset " ++ toString offset ++ " into a stack of " ++ toString size
  | notStatement kind => kind.name ++ " cannot be reduced to a statement"
  | noStatementAt index count =>
    "no statement at index " ++ toString index ++ " of " ++ toString count
  | noStatement => "no statement to remove"
  | notComparison op => op.name ++ " is not a comparison"
  | unexpected expected => "expected " ++ expected
  | unfinished kind pc =>
    kind.name ++ " at pc " ++ (match pc with
      | some pc => "Some(" ++ toString pc ++ ")"
      | none => "None") ++ " contains an unfinished allocation or increment"
  | noLocal slot pc className method =>
    "no local variable in slot " ++ toString slot.toNat ++ " at pc " ++ toString pc ++ " of "
      ++ className ++ "#" ++ method
  | noBootstrapMethod index site =>
    "bootstrap method " ++ toString index.toNat ++ " of call site " ++ toString site.toNat
  | noMethodWithLine className method line =>
    "no method " ++ className ++ "#" ++ method ++ " covering line " ++ toString line.toNat
  | noLine line className method =>
    "line " ++ toString line.toNat ++ " is not part of " ++ className ++ "#" ++ method
  | declared _ text => text

def message (f : Fault) : String :=
  match f.kind with
  | .format => "invalid byte code: " ++ f.detail
  | .illegalState => "illegal decompilation state: " ++ f.detail
  | .unresolved => "unresolved reference: " ++ f.detail
  | .endOfStream => "unexpected end of code"

end Fault

end JvmLift
