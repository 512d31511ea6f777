import JvmLift.ClassFile.Bytes

namespace JvmLift

-- An attribute that is not decoded yet.
structure Attribute where
  name : UInt16
  info : Bytes
deriving DecidableEq

namespace Attribute

def read : Read Attribute := do
  let name ← Read.u16
  let length ← Read.u32
  return ⟨name, ← Read.take length.toNat⟩

end Attribute

-- The code from `start` up to `stop` is protected by the handler. A catch type of zero
-- catches everything.
structure ExceptionEntry where
  start : UInt16
  stop : UInt16
  handler : UInt16
  catchType : UInt16
deriving DecidableEq

namespace ExceptionEntry

def read : Read ExceptionEntry := do
  return ⟨← Read.u16, ← Read.u16, ← Read.u16, ← Read.u16⟩

def covers (e : ExceptionEntry) (pc : Nat) : Bool :=
  e.start.toNat ≤ pc && pc < e.stop.toNat

end ExceptionEntry

structure CodeAttribute where
  maxStack : UInt16
  maxLocals : UInt16
  code : Bytes
  exceptions : List ExceptionEntry
  attributes : List Attribute
deriving DecidableEq

namespace CodeAttribute

def read : Read CodeAttribute := do
  let maxStack ← Read.u16
  let maxLocals ← Read.u16
  let length ← Read.u32
  let code ← Read.take length.toNat
  let exceptions ← Read.counted ExceptionEntry.read
  let attributes ← Read.counted Attribute.read
  return ⟨maxStack, maxLocals, code, exceptions, attributes⟩

end CodeAttribute

-- The code from `start` on was compiled from `line`.
structure LineEntry where
  start : UInt16
  line : UInt16
deriving DecidableEq

namespace LineEntry

def read : Read LineEntry := do
  return ⟨← Read.u16, ← Read.u16⟩

end LineEntry

-- A row of the table that names the locals. Name and descriptor are indices into the pool.
structure LocalEntry where
  start : UInt16
  length : UInt16
  name : UInt16
  descriptor : UInt16
  slot : UInt16
deriving DecidableEq

namespace LocalEntry

def read : Read LocalEntry := do
  return ⟨← Read.u16, ← Read.u16, ← Read.u16, ← Read.u16, ← Read.u16⟩

end LocalEntry

-- The method that links a call site, and the constants it is given.
structure BootstrapMethod where
  handle : UInt16
  arguments : List UInt16
deriving DecidableEq

namespace BootstrapMethod

def read : Read BootstrapMethod := do
  return ⟨← Read.u16, ← Read.counted Read.u16⟩

end BootstrapMethod

namespace Attribute

def readLines : Read (List LineEntry) :=
  Read.counted LineEntry.read

def readLocals : Read (List LocalEntry) :=
  Read.counted LocalEntry.read

def readBootstrapMethods : Read (List BootstrapMethod) :=
  Read.counted BootstrapMethod.read

def readSourceFile : Read UInt16 :=
  Read.u16

end Attribute

end JvmLift
