namespace JvmLift

-- A type of the machine as descriptors spell it, and the type of the null literal.
inductive JvmType where
  | int
  | long
  | float
  | double
  | byte
  | char
  | short
  | boolean
  | void
  | reference (name : String)
  | array (component : JvmType)
  | null
deriving DecidableEq, Inhabited

-- The last segment of an internal class name such as `java/util/List`.
def simpleClassName (name : String) : String :=
  String.ofList (name.toList.reverse.takeWhile (· != '/')).reverse

-- The name of a class as source text spells it in full.
def qualifiedClassName (name : String) : String :=
  name.map fun c => if c = '/' then '.' else c

namespace JvmType

def object : JvmType := .reference "java/lang/Object"

def string : JvmType := .reference "java/lang/String"

def classOf : JvmType := .reference "java/lang/Class"

-- Longs and doubles take two words of the operand stack.
def isWide : JvmType → Bool
  | .long | .double => true
  | _ => false

-- The computational category, which is the number of words a value takes.
def category (ty : JvmType) : Nat :=
  if ty.isWide then 2 else 1

def isPrimitive : JvmType → Bool
  | .reference _ | .array _ | .null => false
  | _ => true

-- Integral types that the machine computes on as ints and narrows on assignment.
def isNarrow : JvmType → Bool
  | .byte | .short | .char => true
  | _ => false

def component? : JvmType → Option JvmType
  | .array component => some component
  | _ => none

def className? : JvmType → Option String
  | .reference name => some name
  | _ => none

-- The type below all array dimensions, and their number.
def base : JvmType → JvmType × Nat
  | .array component => (component.base.1, component.base.2 + 1)
  | ty => (ty, 0)

-- The name in source text, with or without the package. A nested class is set off by a dot
-- only in the short form.
def sourceName (simple : Bool) : JvmType → String
  | .int => "int"
  | .long => "long"
  | .float => "float"
  | .double => "double"
  | .byte => "byte"
  | .char => "char"
  | .short => "short"
  | .boolean => "boolean"
  | .void => "void"
  | .reference name =>
    if simple then (simpleClassName name).map fun c => if c = '$' then '.' else c
    else qualifiedClassName name
  | .array component => component.sourceName simple ++ "[]"
  | .null => "null"

-- The element type that the operand of a primitive array allocation selects.
def ofArrayCode? (code : UInt8) : Option JvmType :=
  match code.toNat with
  | 4 => some .boolean
  | 5 => some .char
  | 6 => some .float
  | 7 => some .double
  | 8 => some .byte
  | 9 => some .short
  | 10 => some .int
  | 11 => some .long
  | _ => none

-- The wrapper classes, each with the primitive it boxes.
def wrappers : List (String × JvmType) :=
  [("java/lang/Boolean", .boolean),
   ("java/lang/Byte", .byte),
   ("java/lang/Character", .char),
   ("java/lang/Short", .short),
   ("java/lang/Integer", .int),
   ("java/lang/Long", .long),
   ("java/lang/Float", .float),
   ("java/lang/Double", .double)]

-- The primitive that a wrapper class boxes.
def unboxed? (className : String) : Option JvmType :=
  wrappers.lookup className

end JvmType

end JvmLift
