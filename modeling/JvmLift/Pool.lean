import JvmLift.ClassFile.Bytes
import JvmLift.ClassFile.Error
import JvmLift.Decimal.Layout
import JvmLift.Text.ModifiedUtf8

namespace JvmLift

-- How a method handle refers to its member.
inductive HandleKind where
  | getField
  | getStatic
  | putField
  | putStatic
  | invokeVirtual
  | invokeStatic
  | invokeSpecial
  | newInvokeSpecial
  | invokeInterface
deriving DecidableEq

namespace HandleKind

-- All kinds, in the order of their tags.
def all : List HandleKind :=
  [getField, getStatic, putField, putStatic, invokeVirtual, invokeStatic, invokeSpecial,
   newInvokeSpecial, invokeInterface]

def tag : HandleKind → UInt8
  | getField => 1
  | getStatic => 2
  | putField => 3
  | putStatic => 4
  | invokeVirtual => 5
  | invokeStatic => 6
  | invokeSpecial => 7
  | newInvokeSpecial => 8
  | invokeInterface => 9

def ofTag? (tag : UInt8) : Option HandleKind :=
  all.find? fun kind => kind.tag = tag

def name : HandleKind → String
  | getField => "GetField"
  | getStatic => "GetStatic"
  | putField => "PutField"
  | putStatic => "PutStatic"
  | invokeVirtual => "InvokeVirtual"
  | invokeStatic => "InvokeStatic"
  | invokeSpecial => "InvokeSpecial"
  | newInvokeSpecial => "NewInvokeSpecial"
  | invokeInterface => "InvokeInterface"

def isField : HandleKind → Bool
  | getField | getStatic | putField | putStatic => true
  | _ => false

-- Whether the member is called on an object.
def hasReceiver : HandleKind → Bool
  | invokeVirtual | invokeSpecial | invokeInterface => true
  | _ => false

end HandleKind

-- An entry of the constant pool. Entries refer to each other by index.
inductive PoolEntry where
  | utf8 (text : String)
  | integer (value : Int32)
  | float (value : Decimal.Float32Bits)
  | long (value : Int64)
  | double (value : Decimal.Float64Bits)
  | classRef (name : UInt16)
  | string (text : UInt16)
  | fieldRef (owner nameAndType : UInt16)
  | methodRef (owner nameAndType : UInt16)
  | interfaceMethodRef (owner nameAndType : UInt16)
  | nameAndType (name descriptor : UInt16)
  | methodHandle (kind : UInt8) (reference : UInt16)
  | methodType (descriptor : UInt16)
  | dynamic (bootstrap nameAndType : UInt16)
  | invokeDynamic (bootstrap nameAndType : UInt16)
  | moduleRef (name : UInt16)
  | packageRef (name : UInt16)
  -- the slot behind a long or a double
  | unusable
deriving DecidableEq

namespace PoolEntry

-- Longs and doubles take two slots.
def isWide : PoolEntry → Bool
  | long _ | double _ => true
  | _ => false

-- Reads a tag and the fields that it calls for.
def read : Read PoolEntry := do
  match (← Read.u8).toNat with
  | 1 => return utf8 (Text.decodeModified (← Read.take (← Read.u16).toNat))
  | 3 => return integer (← Read.u32).toInt32
  | 4 => return float ⟨← Read.u32⟩
  | 5 => return long (← Read.u64).toInt64
  | 6 => return double ⟨← Read.u64⟩
  | 7 => return classRef (← Read.u16)
  | 8 => return string (← Read.u16)
  | 9 => return fieldRef (← Read.u16) (← Read.u16)
  | 10 => return methodRef (← Read.u16) (← Read.u16)
  | 11 => return interfaceMethodRef (← Read.u16) (← Read.u16)
  | 12 => return nameAndType (← Read.u16) (← Read.u16)
  | 15 => return methodHandle (← Read.u8) (← Read.u16)
  | 16 => return methodType (← Read.u16)
  | 17 => return dynamic (← Read.u16) (← Read.u16)
  | 18 => return invokeDynamic (← Read.u16) (← Read.u16)
  | 19 => return moduleRef (← Read.u16)
  | 20 => return packageRef (← Read.u16)
  | _ => failure

-- Reads entries until a number of slots is filled. A wide entry in the last slot fills one more.
def readSlots : Nat → Read (List PoolEntry)
  | 0 => pure []
  | n + 1 => do
    let entry ← read
    if entry.isWide then
      match n with
      | 0 => return [entry, unusable]
      | m + 1 => return entry :: unusable :: (← readSlots m)
    else return entry :: (← readSlots n)

-- Reads the entries of a pool of the given size. The size counts a slot zero that has no entry.
def readAll (size : UInt16) : Read (List PoolEntry) :=
  readSlots (size.toNat - 1)

end PoolEntry

-- A constant that an instruction can push.
inductive Loadable where
  | int (value : Int32)
  | float (value : Decimal.Float32Bits)
  | long (value : Int64)
  | double (value : Decimal.Float64Bits)
  | string (text : String)
  | classRef (name : String)
deriving DecidableEq

namespace Loadable

def category : Loadable → Nat
  | long _ | double _ => 2
  | _ => 1

-- The constant as text, with the text of a string between plain quotes.
def text : Loadable → String
  | int value => toString value.toInt
  | float value => value.text .plain ++ "f"
  | long value => toString value.toInt ++ "L"
  | double value => value.text .plain ++ "d"
  | string text => "\"" ++ text ++ "\""
  | classRef name => name ++ ".class"

end Loadable

-- A field or method that the pool names.
structure MemberRef where
  owner : String
  name : String
  descriptor : String
  ofInterface : Bool
deriving DecidableEq

structure HandleRef where
  kind : HandleKind
  member : MemberRef
deriving DecidableEq

-- A call site that is linked by a bootstrap method.
structure CallSiteRef where
  bootstrap : UInt16
  name : String
  descriptor : String
deriving DecidableEq

-- The constants of a class. The entries are numbered from one.
structure Pool where
  entries : Array PoolEntry
deriving DecidableEq

namespace Pool

def empty : Pool := ⟨#[]⟩

def size (p : Pool) : Nat := p.entries.size

def get (p : Pool) (index : UInt16) : Except ClassFileError PoolEntry :=
  match index.toNat with
  | 0 => .error (.badIndex index p.size)
  | i + 1 =>
    match p.entries[i]? with
    | some entry => .ok entry
    | none => .error (.badIndex index p.size)

def utf8 (p : Pool) (index : UInt16) : Except ClassFileError String := do
  match ← p.get index with
  | .utf8 text => return text
  | _ => throw (.wrongEntry index "Utf8")

-- The internal name of a class.
def className (p : Pool) (index : UInt16) : Except ClassFileError String := do
  match ← p.get index with
  | .classRef name => p.utf8 name
  | _ => throw (.wrongEntry index "Class")

-- A name and a descriptor.
def nameAndType (p : Pool) (index : UInt16) : Except ClassFileError (String × String) := do
  match ← p.get index with
  | .nameAndType name descriptor => return (← p.utf8 name, ← p.utf8 descriptor)
  | _ => throw (.wrongEntry index "NameAndType")

def member (p : Pool) (owner nameAndType : UInt16) (ofInterface : Bool) :
    Except ClassFileError MemberRef := do
  let owner ← p.className owner
  let (name, descriptor) ← p.nameAndType nameAndType
  return ⟨owner, name, descriptor, ofInterface⟩

def fieldRef (p : Pool) (index : UInt16) : Except ClassFileError MemberRef := do
  match ← p.get index with
  | .fieldRef owner nameAndType => p.member owner nameAndType false
  | _ => throw (.wrongEntry index "Fieldref")

-- A method of a class or of an interface.
def methodRef (p : Pool) (index : UInt16) : Except ClassFileError MemberRef := do
  match ← p.get index with
  | .methodRef owner nameAndType => p.member owner nameAndType false
  | .interfaceMethodRef owner nameAndType => p.member owner nameAndType true
  | _ => throw (.wrongEntry index "Methodref")

def loadable (p : Pool) (index : UInt16) : Except ClassFileError Loadable := do
  match ← p.get index with
  | .integer value => return .int value
  | .float value => return .float value
  | .long value => return .long value
  | .double value => return .double value
  | .string text => return .string (← p.utf8 text)
  | .classRef name => return .classRef (← p.utf8 name)
  | _ => throw (.wrongEntry index "loadable constant")

def methodHandle (p : Pool) (index : UInt16) : Except ClassFileError HandleRef := do
  match ← p.get index with
  | .methodHandle tag reference =>
    match HandleKind.ofTag? tag with
    | some kind =>
      return ⟨kind, ← if kind.isField then p.fieldRef reference else p.methodRef reference⟩
    | none => throw (.wrongEntry index "MethodHandle")
  | _ => throw (.wrongEntry index "MethodHandle")

-- The descriptor of a method type.
def methodType (p : Pool) (index : UInt16) : Except ClassFileError String := do
  match ← p.get index with
  | .methodType descriptor => p.utf8 descriptor
  | _ => throw (.wrongEntry index "MethodType")

def invokeDynamic (p : Pool) (index : UInt16) : Except ClassFileError CallSiteRef := do
  match ← p.get index with
  | .invokeDynamic bootstrap nameAndType =>
    let (name, descriptor) ← p.nameAndType nameAndType
    return ⟨bootstrap, name, descriptor⟩
  | _ => throw (.wrongEntry index "InvokeDynamic")

end Pool

end JvmLift
