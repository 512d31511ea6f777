import JvmLift.Pool

namespace JvmLift

-- A way to add entries to a pool. Each step gives the index of what it added.
abbrev PoolBuilder := StateM Pool

namespace PoolBuilder

-- Adds an entry at the end, and an unusable slot behind a wide one.
def push (entry : PoolEntry) : PoolBuilder UInt16 := do
  let pool ← get
  let entries := pool.entries.push entry
  set (⟨if entry.isWide then entries.push .unusable else entries⟩ : Pool)
  return .ofNat (pool.size + 1)

-- Adds an entry unless the pool has it already.
def share (entry : PoolEntry) : PoolBuilder UInt16 := do
  match (← get).entries.idxOf? entry with
  | some i => return .ofNat (i + 1)
  | none => push entry

def utf8 (text : String) : PoolBuilder UInt16 :=
  share (.utf8 text)

def integer (value : Int32) : PoolBuilder UInt16 :=
  push (.integer value)

def float (value : Decimal.Float32Bits) : PoolBuilder UInt16 :=
  push (.float value)

def long (value : Int64) : PoolBuilder UInt16 :=
  push (.long value)

def double (value : Decimal.Float64Bits) : PoolBuilder UInt16 :=
  push (.double value)

def string (text : String) : PoolBuilder UInt16 := do
  push (.string (← utf8 text))

def classRef (name : String) : PoolBuilder UInt16 := do
  share (.classRef (← utf8 name))

def nameAndType (name descriptor : String) : PoolBuilder UInt16 := do
  share (.nameAndType (← utf8 name) (← utf8 descriptor))

def fieldRef (owner name descriptor : String) : PoolBuilder UInt16 := do
  push (.fieldRef (← classRef owner) (← nameAndType name descriptor))

def methodRef (owner name descriptor : String) : PoolBuilder UInt16 := do
  push (.methodRef (← classRef owner) (← nameAndType name descriptor))

def interfaceMethodRef (owner name descriptor : String) : PoolBuilder UInt16 := do
  push (.interfaceMethodRef (← classRef owner) (← nameAndType name descriptor))

def methodHandle (kind : HandleKind) (reference : UInt16) : PoolBuilder UInt16 :=
  push (.methodHandle kind.tag reference)

def methodType (descriptor : String) : PoolBuilder UInt16 := do
  push (.methodType (← utf8 descriptor))

def invokeDynamic (bootstrap : UInt16) (name descriptor : String) : PoolBuilder UInt16 := do
  push (.invokeDynamic bootstrap (← nameAndType name descriptor))

end PoolBuilder

end JvmLift
