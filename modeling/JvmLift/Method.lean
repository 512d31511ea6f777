import JvmLift.ClassFile.Attribute
import JvmLift.Pool
import JvmLift.Sorting
import JvmLift.Type.Descriptor

namespace JvmLift

-- A local variable, in scope over `length` bytes of code from `start` on.
structure LocalVariable where
  name : String
  ty : JvmType
  slot : UInt16
  start : UInt16
  length : UInt16
deriving DecidableEq

namespace LocalVariable

def isLiveAt (v : LocalVariable) (pc : Nat) : Bool :=
  v.start.toNat ≤ pc && pc < v.start.toNat + v.length.toNat

end LocalVariable

-- What a method is put together from.
structure MethodSource where
  className : String
  name : String
  descriptor : String
  flags : UInt16 := 1
  code : Bytes := []
  lines : List LineEntry := []
  locals : List LocalVariable := []
  exceptions : List ExceptionEntry := []
  pool : Pool := .empty
  bootstrapMethods : List BootstrapMethod := []
deriving DecidableEq

-- A method with its descriptor read and its line table in code order.
structure Method extends MethodSource where
  signature : MethodDescriptor
deriving DecidableEq

-- Reads a method descriptor and names the text that is none.
def MethodDescriptor.ofDescriptor (text : String) : Except ClassFileError MethodDescriptor :=
  match ofDescriptor? text with
  | some signature => .ok signature
  | none => .error (.descriptor text)

-- Entries by their start. Entries with the same start keep their order.
def sortLines (entries : List LineEntry) : List LineEntry :=
  sorted (fun a b => a.start ≤ b.start) entries

namespace Method

def ofSource (source : MethodSource) : Except ClassFileError Method := do
  let signature ← MethodDescriptor.ofDescriptor source.descriptor
  return { source with lines := sortLines source.lines, signature := signature }

def isStatic (m : Method) : Bool :=
  m.flags &&& 0x0008 ≠ 0

-- Whether a compiler made the method for the body of a lambda expression.
def isLambdaBody (m : Method) : Bool :=
  "lambda$".isPrefixOf m.name

-- The variable in a slot at `pc`. Several variables may take turns in one slot.
def localAt? (m : Method) (slot : UInt16) (pc : Nat) : Option LocalVariable :=
  m.locals.find? fun v => v.slot = slot && v.isLiveAt pc

-- The slot behind the receiver, if there is one.
def firstParameterSlot (m : Method) : Nat :=
  if m.isStatic then 0 else 1

-- The variables that hold the parameters, ordered by slot.
def parameters (m : Method) : List LocalVariable :=
  let first : UInt16 := .ofNat m.firstParameterSlot
  let candidates := m.locals.filter fun v =>
    v.start = 0 && first ≤ v.slot && v.slot < first + m.signature.slots
  sorted (fun a b => a.slot ≤ b.slot) candidates

def hasLine (m : Method) (line : UInt16) : Bool :=
  m.lines.any fun e => e.line = line

-- The start of the code of a line, and the start of the next code of any other line.
def codeRange? (m : Method) (line : UInt16) : Option (Nat × Nat) := do
  let start ← ((m.lines.filter fun e => e.line = line).map fun e => e.start.toNat).min?
  let others := m.lines.filter fun e => e.line ≠ line && start < e.start.toNat
  return (start, (others.map fun e => e.start.toNat).min?.getD m.code.length)

-- The first entry whose protected code ends at `pc`.
def exceptionEndingAt? (m : Method) (pc : Nat) : Option ExceptionEntry :=
  m.exceptions.find? fun e => e.stop.toNat = pc

def bootstrapMethod? (m : Method) (index : UInt16) : Option BootstrapMethod :=
  m.bootstrapMethods[index.toNat]?

end Method

end JvmLift
