import JvmLift.Decimal.Shortest

namespace JvmLift.Decimal

-- How a decimal is laid out: the magnitudes written with an exponent, whether a whole number
-- still gets a fraction digit, and the names of the values that are not numbers.
structure Layout where
  scientific : Int → Bool
  fraction : Bool
  nan : String
  infinity : String

def zeros (n : Nat) : String :=
  String.ofList (List.replicate n '0')

namespace Layout

-- The digits around the point, with an exponent behind them.
def writeScientific (d : Scientific) : String :=
  match Nat.toDigits 10 d.digits with
  | [] => ""
  | lead :: rest =>
    let point := if rest = [] then "" else "." ++ String.ofList rest
    lead.toString ++ point ++ "e" ++ toString d.magnitude

-- All digits, with zeros up to the point on either side.
def writePositional (fraction : Bool) (d : Scientific) : String :=
  let digits := Nat.toDigits 10 d.digits
  if 0 ≤ d.exponent then
    String.ofList digits ++ zeros d.exponent.toNat ++ if fraction then ".0" else ""
  else
    let places := (-d.exponent).toNat
    if digits.length ≤ places then
      "0." ++ zeros (places - digits.length) ++ String.ofList digits
    else
      let (whole, part) := digits.splitAt (digits.length - places)
      String.ofList whole ++ "." ++ String.ofList part

def write (layout : Layout) (d : Scientific) : String :=
  if layout.scientific d.magnitude then writeScientific d
  else writePositional layout.fraction d

-- The text of a value, with the sign of zero kept.
def text (layout : Layout) (f : Format) : Binary → String
  | .nan => layout.nan
  | .infinite negative => (if negative then "-" else "") ++ layout.infinity
  | .finite negative mantissa exponent =>
    (if negative then "-" else "") ++
      if mantissa = 0 then if layout.fraction then "0.0" else "0"
      else layout.write (shortest f mantissa exponent)

-- Source text: numbers from 1e-4 up to 1e16 are positional and always have a fraction.
def source : Layout :=
  ⟨fun m => m < -4 || 16 ≤ m, true, "NaN", "inf"⟩

-- Plain text: never an exponent, and no fraction on a whole number.
def plain : Layout :=
  ⟨fun _ => false, false, "NaN", "inf"⟩

end Layout

def Float32Bits.text (layout : Layout) (x : Float32Bits) : String :=
  layout.text .single x.value

def Float64Bits.text (layout : Layout) (x : Float64Bits) : String :=
  layout.text .double x.value

end JvmLift.Decimal
