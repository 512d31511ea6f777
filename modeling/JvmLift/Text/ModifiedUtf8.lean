namespace JvmLift.Text

-- The sixteen-bit units that a class file string spells: one byte for the first 128 units,
-- two up to 0x7ff, three for the rest. A byte that starts none of these forms, or whose
-- form is cut off by the end, stands for the replacement unit.
def units : List UInt8 → List UInt16
  | [] => []
  | a :: r =>
    if a &&& 0x80 = 0 then a.toUInt16 :: units r
    else if a &&& 0xe0 = 0xc0 then
      match r with
      | b :: r => ((a.toUInt16 &&& 0x1f) <<< 6 ||| (b.toUInt16 &&& 0x3f)) :: units r
      | [] => [0xfffd]
    else if a &&& 0xf0 = 0xe0 then
      match r with
      | b :: c :: r =>
        ((a.toUInt16 &&& 0x0f) <<< 12 ||| (b.toUInt16 &&& 0x3f) <<< 6 ||| (c.toUInt16 &&& 0x3f))
          :: units r
      | r => 0xfffd :: units r
    else 0xfffd :: units r

def isLeading (u : UInt16) : Bool :=
  0xd800 ≤ u && u < 0xdc00

def isTrailing (u : UInt16) : Bool :=
  0xdc00 ≤ u && u < 0xe000

-- Joins surrogate pairs to one character and replaces a surrogate that has no partner.
def joinUnits : List UInt16 → List Char
  | [] => []
  | u :: r =>
    if isLeading u then
      match r with
      | v :: s =>
        if isTrailing v then
          Char.ofNat (0x10000 + (u.toNat - 0xd800) * 0x400 + (v.toNat - 0xdc00)) :: joinUnits s
        else '\ufffd' :: joinUnits (v :: s)
      | [] => ['\ufffd']
    else if isTrailing u then '\ufffd' :: joinUnits r
    else Char.ofNat u.toNat :: joinUnits r

-- The text of a string constant of a class file.
def decodeModified (bytes : List UInt8) : String :=
  String.ofList (joinUnits (units bytes))

-- The form of a unit in a class file. Zero has two bytes, so that no text has a zero byte in it.
def unitBytes (u : UInt16) : List UInt8 :=
  let n := u.toNat
  if n ≠ 0 ∧ n < 0x80 then [.ofNat n]
  else if n < 0x800 then [.ofNat (0xc0 + n / 0x40), .ofNat (0x80 + n % 0x40)]
  else [.ofNat (0xe0 + n / 0x1000), .ofNat (0x80 + n / 0x40 % 0x40), .ofNat (0x80 + n % 0x40)]

-- The units of a character: itself, or a pair of surrogates if it needs more than sixteen bits.
def charUnits (c : Char) : List UInt16 :=
  if c.toNat < 0x10000 then [.ofNat c.toNat]
  else
    let n := c.toNat - 0x10000
    [.ofNat (0xd800 + n / 0x400), .ofNat (0xdc00 + n % 0x400)]

-- The bytes that a class file has for a text.
def encodeModified (text : String) : List UInt8 :=
  (text.toList.flatMap charUnits).flatMap unitBytes

end JvmLift.Text
