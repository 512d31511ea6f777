namespace JvmLift.Decimal

-- A binary interchange format: the widths of the two fields behind the sign bit.
structure Format where
  exponentBits : Nat
  fractionBits : Nat
deriving DecidableEq

namespace Format

-- The weight of the bit in front of the fraction, which is not stored.
def hiddenBit (f : Format) : Nat :=
  Nat.pow 2 f.fractionBits

-- The number of values of the exponent field.
def exponents (f : Format) : Nat :=
  Nat.pow 2 f.exponentBits

def single : Format := ⟨8, 23⟩

def double : Format := ⟨11, 52⟩

end Format

-- What a bit pattern stands for. A finite value is `mantissa * 2 ^ exponent`.
inductive Binary where
  | nan
  | infinite (negative : Bool)
  | finite (negative : Bool) (mantissa : Nat) (exponent : Int)
deriving DecidableEq

namespace Binary

-- The value of a bit pattern. An exponent field of zero drops the hidden bit and counts as one.
def ofBits (f : Format) (bits : Nat) : Binary :=
  let fraction := bits % f.hiddenBit
  let field := bits / f.hiddenBit % f.exponents
  let negative := bits.testBit (f.exponentBits + f.fractionBits)
  if field = f.exponents - 1 then
    if fraction = 0 then .infinite negative else .nan
  else
    let mantissa := if field = 0 then fraction else fraction + f.hiddenBit
    let bias := f.exponents / 2 - 1 + f.fractionBits
    .finite negative mantissa ((max field 1 : Nat) - (bias : Int))

-- The order's equality on values: zeros of both signs are equal and a NaN differs from itself.
def same : Binary → Binary → Bool
  | .nan, _ => false
  | .finite _ 0 _, .finite _ 0 _ => true
  | a, b => a = b

end Binary

-- A single precision value, kept as its bits.
structure Float32Bits where
  bits : UInt32
deriving DecidableEq, Inhabited

-- A double precision value, kept as its bits.
structure Float64Bits where
  bits : UInt64
deriving DecidableEq, Inhabited

namespace Float32Bits

def value (x : Float32Bits) : Binary :=
  .ofBits .single x.bits.toNat

def same (x y : Float32Bits) : Bool :=
  x.value.same y.value

end Float32Bits

namespace Float64Bits

def value (x : Float64Bits) : Binary :=
  .ofBits .double x.bits.toNat

def same (x y : Float64Bits) : Bool :=
  x.value.same y.value

end Float64Bits

end JvmLift.Decimal
