import JvmLift.Decimal.Binary

namespace JvmLift.Decimal

-- A positive decimal `digits * 10 ^ exponent`.
structure Scientific where
  digits : Nat
  exponent : Int
deriving DecidableEq, Repr

namespace Scientific

-- The exponent of the leading digit.
def magnitude (d : Scientific) : Int :=
  d.exponent + (Nat.toDigits 10 d.digits).length - 1

end Scientific

-- A positive fraction.
structure Ratio where
  num : Nat
  den : Nat

namespace Ratio

-- The fraction `n * 2 ^ e`.
def scale2 (n : Nat) (e : Int) : Ratio :=
  ⟨n * Nat.pow 2 e.toNat, Nat.pow 2 (-e).toNat⟩

-- The fraction divided by `10 ^ e`.
def shift10 (r : Ratio) (e : Int) : Ratio :=
  ⟨r.num * Nat.pow 10 (-e).toNat, r.den * Nat.pow 10 e.toNat⟩

def floor (r : Ratio) : Nat :=
  r.num / r.den

end Ratio

-- The reals that round to a value, as multiples of a common unit, with the value between them.
structure Interval where
  low : Nat
  value : Nat
  high : Nat
  unit : Int
  closed : Bool

-- The interval of `mantissa * 2 ^ exponent`. The gap below a power of two is half as wide as
-- the one above it, and a tie between two values goes to the even mantissa.
def Interval.around (f : Format) (mantissa : Nat) (exponent : Int) : Interval :=
  let below := if mantissa = f.hiddenBit then 1 else 2
  ⟨4 * mantissa - below, 4 * mantissa, 4 * mantissa + 2, exponent - 2, mantissa % 2 = 0⟩

-- Whether `n * 10 ^ e` lies in the interval.
def Interval.contains (i : Interval) (n : Nat) (e : Int) : Bool :=
  let at10 (k : Nat) := (Ratio.scale2 k i.unit).shift10 e
  let low := at10 i.low
  let high := at10 i.high
  if i.closed then low.num ≤ n * low.den && n * high.den ≤ high.num
  else low.num < n * low.den && n * high.den < high.num

-- The neighbour of the value on the grid of multiples of `10 ^ e` that lies in the interval.
-- Of two, the nearer one is taken, and of two equally near ones the upper.
def Interval.onGrid? (i : Interval) (e : Int) : Option Scientific :=
  let v := (Ratio.scale2 i.value i.unit).shift10 e
  let n := v.floor
  match i.contains n e && 0 < n, i.contains (n + 1) e with
  | true, true => some ⟨if 2 * (v.num - n * v.den) < v.den then n else n + 1, e⟩
  | true, false => some ⟨n, e⟩
  | false, true => some ⟨n + 1, e⟩
  | false, false => none

-- Moves trailing zeros of the digits into the exponent.
def Scientific.trimmed (d : Scientific) : Scientific :=
  let zeros := ((Nat.toDigits 10 d.digits).reverse.takeWhile (· = '0')).length
  ⟨d.digits / Nat.pow 10 zeros, d.exponent + zeros⟩

-- An exponent of ten that is at least that of the leading digit of the value, and close to it.
def Interval.decade (i : Interval) : Int :=
  let v := Ratio.scale2 i.value i.unit
  let above := (Nat.toDigits 10 (v.num / v.den)).length
  if v.den ≤ v.num then above - 1
  else -((Nat.toDigits 10 (v.den / v.num)).length : Int) + 1

-- The decimal with the fewest digits that rounds to a positive value, and of those the nearest
-- one. Finer and finer grids are searched, and the first that has a point in the interval gives it.
def shortest (f : Format) (mantissa : Nat) (exponent : Int) : Scientific :=
  let i := Interval.around f mantissa exponent
  let start := i.decade
  match (List.range (f.fractionBits + 1)).findSome? fun (k : Nat) => i.onGrid? (start - k) with
  | some d => d.trimmed
  | none => ⟨0, 0⟩

end JvmLift.Decimal
