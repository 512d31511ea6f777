import JvmLift.ClassFile.Attribute
import JvmLift.Pool

namespace JvmLift

-- A field or a method as the file declares it. Name and descriptor are indices into the pool.
structure MemberInfo where
  flags : UInt16
  name : UInt16
  descriptor : UInt16
  attributes : List Attribute
deriving DecidableEq

namespace MemberInfo

def read : Read MemberInfo := do
  return ⟨← Read.u16, ← Read.u16, ← Read.u16, ← Read.counted Attribute.read⟩

end MemberInfo

-- The layers of a class file with all references still indices.
structure ClassFile where
  minor : UInt16
  major : UInt16
  poolSize : UInt16
  pool : List PoolEntry
  flags : UInt16
  thisClass : UInt16
  superClass : UInt16
  interfaces : List UInt16
  fields : List MemberInfo
  methods : List MemberInfo
  attributes : List Attribute
deriving DecidableEq

namespace ClassFile

-- The four bytes that every class file starts with.
def magic : UInt32 := 0xcafebabe

def read : Read ClassFile := do
  if (← Read.u32) ≠ magic then failure
  let minor ← Read.u16
  let major ← Read.u16
  let poolSize ← Read.u16
  let pool ← PoolEntry.readAll poolSize
  let flags ← Read.u16
  let thisClass ← Read.u16
  let superClass ← Read.u16
  let interfaces ← Read.counted Read.u16
  let fields ← Read.counted MemberInfo.read
  let methods ← Read.counted MemberInfo.read
  let attributes ← Read.counted Attribute.read
  return ⟨minor, major, poolSize, pool, flags, thisClass, superClass, interfaces, fields, methods,
    attributes⟩

-- Reads a class file and returns the bytes that follow it.
def ofBytes (bytes : Bytes) : Except ClassFileError (ClassFile × Bytes) :=
  match read bytes with
  | some result => .ok result
  | none => .error .malformed

-- Reads the contents of a file, which are missing if it could not be opened.
def ofContents (contents : Option Bytes) : Except ClassFileError (ClassFile × Bytes) :=
  match contents with
  | some bytes => ofBytes bytes
  | none => .error .unreadable

end ClassFile

end JvmLift
