import JvmLift.Decimal.Binary
import JvmLift.Element.Operator
import JvmLift.Pool
import JvmLift.Type.Descriptor

namespace JvmLift

-- The value of a constant expression.
inductive Constant where
  | null
  | int (value : Int32)
  | long (value : Int64)
  | float (value : Decimal.Float32Bits)
  | double (value : Decimal.Float64Bits)
  | boolean (value : Bool)
  | string (text : String)
  | classOf (ty : JvmType)
deriving DecidableEq

-- Whether two constants count as equal. Floating point values compare by their order, all
-- others by what they are.
def Constant.same : Constant → Constant → Bool
  | .float x, .float y => x.same y
  | .double x, .double y => x.same y
  | x, y => x = y

-- A local variable as an expression reads it.
structure LocalRef where
  name : String
  ty : JvmType
  slot : UInt16
deriving DecidableEq

-- A field of an object, or of a class if there is no target.
structure FieldAccess (ε : Type) where
  target : Option ε
  owner : JvmType
  ty : JvmType
  name : String
deriving DecidableEq

-- A call of a method. A static one has no target.
structure Call (ε : Type) where
  owner : JvmType
  name : String
  signature : MethodDescriptor
  target : Option ε
  args : List ε
  ty : JvmType
deriving DecidableEq

def Call.isConstructor {ε : Type} (c : Call ε) : Bool :=
  c.name = "<init>"

-- An object of a functional interface whose method runs the backing method. The receiver and
-- the enclosed variables are passed in front of the arguments.
structure Lambda (ε : Type) where
  receiver : Option ε
  kind : HandleKind
  interface : JvmType
  method : String
  interfaceSignature : MethodDescriptor
  declaring : JvmType
  backing : String
  backingSignature : MethodDescriptor
  enclosed : List LocalRef
deriving DecidableEq

-- One layer of a tree, with `ε` in the places of the elements below it.
inductive Shape (ε : Type) where
  | constant (value : Constant) (ty : JvmType)
  | localVar (v : LocalRef)
  | field (f : FieldAccess ε)
  | arrayLoad (array index : ε) (ty : JvmType)
  | binary (left : ε) (op : BinaryOp) (right : ε) (ty : JvmType)
  | unary (operand : ε) (op : UnaryOp) (ty : JvmType)
  -- the three-way comparison of longs, floats or doubles
  | compare (left right : ε)
  | cast (value : ε) (ty : JvmType)
  | instanceOf (value : ε) (ty : JvmType)
  | increment (v : LocalRef) (delta : Int32) (ty : JvmType) (affix : Affix)
  | call (c : Call ε)
  -- an object whose constructor has not been called yet
  | allocate (ty : JvmType)
  | newInstance (ty : JvmType) (signature : MethodDescriptor) (args : List ε)
  | newArray (ty component : JvmType) (length : ε) (initializers : List (Int32 × ε))
  | lambda (l : Lambda ε)
  | assign (slot : UInt16) (name : String) (ty : JvmType) (value : ε)
  | assignField (f : FieldAccess ε) (value : ε)
  | arrayStore (array index value : ε)
  | ret
  | returnValue (value : ε)
  | branch (left : ε) (op : BinaryOp) (right : ε) (target : Nat)
  | jump (target : Nat)
  | throw (value : ε)
deriving DecidableEq

-- The constructor of a layer.
inductive Kind where
  | constant
  | localVar
  | field
  | arrayLoad
  | binary
  | unary
  | compare
  | cast
  | instanceOf
  | increment
  | call
  | allocate
  | newInstance
  | newArray
  | lambda
  | assign
  | assignField
  | arrayStore
  | ret
  | returnValue
  | branch
  | jump
  | throw
deriving DecidableEq

namespace Kind

def all : List Kind :=
  [constant, localVar, field, arrayLoad, binary, unary, compare, cast, instanceOf, increment, call,
   allocate, newInstance, newArray, lambda, assign, assignField, arrayStore, ret, returnValue,
   branch, jump, throw]

def name : Kind → String
  | constant => "Constant"
  | localVar => "VariableReference"
  | field => "FieldReference"
  | arrayLoad => "ArrayLoad"
  | binary => "BinaryOperator"
  | unary => "UnaryOperator"
  | compare => "Compare"
  | cast => "Cast"
  | instanceOf => "InstanceOf"
  | increment => "Increment"
  | call => "MethodCall"
  | allocate => "Allocate"
  | newInstance => "NewInstance"
  | newArray => "NewArray"
  | lambda => "Lambda"
  | assign => "VariableAssignment"
  | assignField => "FieldAssignment"
  | arrayStore => "ArrayStore"
  | ret => "Return"
  | returnValue => "ReturnValue"
  | branch => "Branch"
  | jump => "Goto"
  | throw => "Throw"

end Kind

namespace Shape

variable {ε : Type}

def kind : Shape ε → Kind
  | constant .. => .constant
  | localVar .. => .localVar
  | field .. => .field
  | arrayLoad .. => .arrayLoad
  | binary .. => .binary
  | unary .. => .unary
  | compare .. => .compare
  | cast .. => .cast
  | instanceOf .. => .instanceOf
  | increment .. => .increment
  | call .. => .call
  | allocate .. => .allocate
  | newInstance .. => .newInstance
  | newArray .. => .newArray
  | lambda .. => .lambda
  | assign .. => .assign
  | assignField .. => .assignField
  | arrayStore .. => .arrayStore
  | ret => .ret
  | returnValue .. => .returnValue
  | branch .. => .branch
  | jump .. => .jump
  | throw .. => .throw

-- The elements directly below the layer, in source order.
@[simp]
def children : Shape ε → List ε
  | constant .. | localVar .. | increment .. | allocate .. | ret | jump .. => []
  | field f => f.target.toList
  | arrayLoad array index _ => [array, index]
  | binary left _ right _ | compare left right | branch left _ right _ => [left, right]
  | unary operand .. => [operand]
  | cast value _ | instanceOf value _ | assign _ _ _ value | returnValue value | throw value =>
    [value]
  | call c => c.target.toList ++ c.args
  | newInstance _ _ args => args
  | newArray _ _ length initializers => length :: initializers.map (·.2)
  | lambda l => l.receiver.toList
  | assignField f value => f.target.toList ++ [value]
  | arrayStore array index value => [array, index, value]

def map {δ : Type} (f : ε → δ) : Shape ε → Shape δ
  | constant value ty => constant value ty
  | localVar v => localVar v
  | field a => field ⟨a.target.map f, a.owner, a.ty, a.name⟩
  | arrayLoad array index ty => arrayLoad (f array) (f index) ty
  | binary left op right ty => binary (f left) op (f right) ty
  | unary operand op ty => unary (f operand) op ty
  | compare left right => compare (f left) (f right)
  | cast value ty => cast (f value) ty
  | instanceOf value ty => instanceOf (f value) ty
  | increment v delta ty affix => increment v delta ty affix
  | call c => call ⟨c.owner, c.name, c.signature, c.target.map f, c.args.map f, c.ty⟩
  | allocate ty => allocate ty
  | newInstance ty signature args => newInstance ty signature (args.map f)
  | newArray ty component length initializers =>
    newArray ty component (f length) (initializers.map fun (i, e) => (i, f e))
  | lambda l => lambda ⟨l.receiver.map f, l.kind, l.interface, l.method, l.interfaceSignature,
      l.declaring, l.backing, l.backingSignature, l.enclosed⟩
  | assign slot name ty value => assign slot name ty (f value)
  | assignField a value => assignField ⟨a.target.map f, a.owner, a.ty, a.name⟩ (f value)
  | arrayStore array index value => arrayStore (f array) (f index) (f value)
  | ret => ret
  | returnValue value => returnValue (f value)
  | branch left op right target => branch (f left) op (f right) target
  | jump target => jump target
  | throw value => throw (f value)

-- Whether two layers agree in everything but what is below them. Both must have room for
-- equally many elements.
def same : Shape Unit → Shape Unit → Bool
  | constant x s, constant y t => x.same y && s = t
  | a, b => a = b

end Shape

end JvmLift
