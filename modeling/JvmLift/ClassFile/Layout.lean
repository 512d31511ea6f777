import JvmLift.ClassFile

namespace JvmLift

namespace Layout

-- A number in a count of bytes, the highest first.
def number : Nat → Nat → Bytes
  | 0, _ => []
  | count + 1, n => number count (n / 256) ++ [.ofNat n]

def u16 (value : UInt16) : Bytes := number 2 value.toNat

def u32 (value : UInt32) : Bytes := number 4 value.toNat

def u64 (value : UInt64) : Bytes := number 8 value.toNat

-- A list behind its length.
def counted {α : Type} (item : α → Bytes) (xs : List α) : Bytes :=
  u16 (.ofNat xs.length) ++ xs.flatMap item

-- A list whose length fits into its field, of what can be laid out itself.
def Countable {α : Type} (fits : α → Prop) (xs : List α) : Prop :=
  xs.length < UInt16.size ∧ ∀ x ∈ xs, fits x

end Layout

namespace Attribute

def bytes (a : Attribute) : Bytes :=
  Layout.u16 a.name ++ (Layout.u32 (.ofNat a.info.length) ++ a.info)

def Fits (a : Attribute) : Prop :=
  a.info.length < UInt32.size

end Attribute

namespace ExceptionEntry

def bytes (e : ExceptionEntry) : Bytes :=
  Layout.u16 e.start ++ (Layout.u16 e.stop ++ (Layout.u16 e.handler ++ Layout.u16 e.catchType))

end ExceptionEntry

namespace CodeAttribute

def bytes (c : CodeAttribute) : Bytes :=
  Layout.u16 c.maxStack ++ (Layout.u16 c.maxLocals ++ (Layout.u32 (.ofNat c.code.length) ++
    (c.code ++ (Layout.counted ExceptionEntry.bytes c.exceptions ++
      Layout.counted Attribute.bytes c.attributes))))

structure Fits (c : CodeAttribute) : Prop where
  code : c.code.length < UInt32.size
  exceptions : c.exceptions.length < UInt16.size
  attributes : Layout.Countable Attribute.Fits c.attributes

end CodeAttribute

namespace LineEntry

def bytes (e : LineEntry) : Bytes :=
  Layout.u16 e.start ++ Layout.u16 e.line

end LineEntry

namespace LocalEntry

def bytes (e : LocalEntry) : Bytes :=
  Layout.u16 e.start ++ (Layout.u16 e.length ++ (Layout.u16 e.name ++
    (Layout.u16 e.descriptor ++ Layout.u16 e.slot)))

end LocalEntry

namespace BootstrapMethod

def bytes (b : BootstrapMethod) : Bytes :=
  Layout.u16 b.handle ++ Layout.counted Layout.u16 b.arguments

def Fits (b : BootstrapMethod) : Prop :=
  b.arguments.length < UInt16.size

end BootstrapMethod

namespace MemberInfo

def bytes (m : MemberInfo) : Bytes :=
  Layout.u16 m.flags ++ (Layout.u16 m.name ++ (Layout.u16 m.descriptor ++
    Layout.counted Attribute.bytes m.attributes))

def Fits (m : MemberInfo) : Prop :=
  Layout.Countable Attribute.Fits m.attributes

end MemberInfo

namespace PoolEntry

-- The tag of an entry and its fields. The slot behind a wide entry takes no bytes.
def bytes : PoolEntry → Bytes
  | utf8 text =>
    1 :: (Layout.u16 (.ofNat (Text.encodeModified text).length) ++ Text.encodeModified text)
  | integer value => 3 :: Layout.u32 value.toUInt32
  | float value => 4 :: Layout.u32 value.bits
  | long value => 5 :: Layout.u64 value.toUInt64
  | double value => 6 :: Layout.u64 value.bits
  | classRef name => 7 :: Layout.u16 name
  | string text => 8 :: Layout.u16 text
  | fieldRef owner signature => 9 :: (Layout.u16 owner ++ Layout.u16 signature)
  | methodRef owner signature => 10 :: (Layout.u16 owner ++ Layout.u16 signature)
  | interfaceMethodRef owner signature => 11 :: (Layout.u16 owner ++ Layout.u16 signature)
  | nameAndType name descriptor => 12 :: (Layout.u16 name ++ Layout.u16 descriptor)
  | methodHandle kind reference => 15 :: kind :: Layout.u16 reference
  | methodType descriptor => 16 :: Layout.u16 descriptor
  | dynamic bootstrap signature => 17 :: (Layout.u16 bootstrap ++ Layout.u16 signature)
  | invokeDynamic bootstrap signature => 18 :: (Layout.u16 bootstrap ++ Layout.u16 signature)
  | moduleRef name => 19 :: Layout.u16 name
  | packageRef name => 20 :: Layout.u16 name
  | unusable => []

def Fits : PoolEntry → Prop
  | utf8 text => (Text.encodeModified text).length < UInt16.size
  | _ => True

-- Pools with an unusable slot behind every wide entry and nowhere else.
def Padded (pool : List PoolEntry) : Prop :=
  ∀ i ≤ pool.length,
    pool[i]? = some unusable ↔ 0 < i ∧ ∃ e, pool[i - 1]? = some e ∧ e.isWide = true

end PoolEntry

namespace ClassFile

-- The bytes of a class file: the magic number, and then its parts one after the other.
def bytes (f : ClassFile) : Bytes :=
  Layout.u32 magic ++ (Layout.u16 f.minor ++ (Layout.u16 f.major ++ (Layout.u16 f.poolSize ++
    (f.pool.flatMap PoolEntry.bytes ++ (Layout.u16 f.flags ++ (Layout.u16 f.thisClass ++
      (Layout.u16 f.superClass ++ (Layout.counted Layout.u16 f.interfaces ++
        (Layout.counted MemberInfo.bytes f.fields ++ (Layout.counted MemberInfo.bytes f.methods ++
          Layout.counted Attribute.bytes f.attributes))))))))))

-- Class files that can be laid out. The counts of lists and the lengths of attributes and texts
-- are no parts of them: they are laid out for what the lists have, and have to fit their fields.
-- The size of the pool is one, and counts a slot zero that has no entry.
structure Fits (f : ClassFile) : Prop where
  poolSize : f.poolSize.toNat = f.pool.length + 1
  pool : ∀ e ∈ f.pool, e.Fits
  padded : PoolEntry.Padded f.pool
  interfaces : f.interfaces.length < UInt16.size
  fields : Layout.Countable MemberInfo.Fits f.fields
  methods : Layout.Countable MemberInfo.Fits f.methods
  attributes : Layout.Countable Attribute.Fits f.attributes

end ClassFile

end JvmLift
