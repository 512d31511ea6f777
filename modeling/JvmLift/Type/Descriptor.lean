import JvmLift.Type

namespace JvmLift

namespace JvmType

-- The null type has no spelling of its own and is written as the root class.
def descriptor : JvmType → String
  | .int => "I"
  | .long => "J"
  | .float => "F"
  | .double => "D"
  | .byte => "B"
  | .char => "C"
  | .short => "S"
  | .boolean => "Z"
  | .void => "V"
  | .reference name => "L" ++ name ++ ";"
  | .array component => "[" ++ component.descriptor
  | .null => "Ljava/lang/Object;"

-- Reads one type from the front of a text and returns what follows it. A class name runs
-- to the first semicolon.
def read : List Char → Option (JvmType × List Char)
  | 'B' :: rest => some (.byte, rest)
  | 'C' :: rest => some (.char, rest)
  | 'D' :: rest => some (.double, rest)
  | 'F' :: rest => some (.float, rest)
  | 'I' :: rest => some (.int, rest)
  | 'J' :: rest => some (.long, rest)
  | 'S' :: rest => some (.short, rest)
  | 'Z' :: rest => some (.boolean, rest)
  | 'V' :: rest => some (.void, rest)
  | 'L' :: rest =>
    match rest.dropWhile (· != ';') with
    | _ :: after => some (.reference (String.ofList (rest.takeWhile (· != ';'))), after)
    | [] => none
  | '[' :: rest => (read rest).map fun (component, after) => (.array component, after)
  | _ => none

theorem length_of_dropWhile_eq_cons {p : Char → Bool} {s after : List Char} {c : Char}
    (h : s.dropWhile p = c :: after) : after.length < s.length := by
  have hs : (s.dropWhile p).length ≤ s.length := (List.dropWhile_sublist p).length_le
  rw [h, List.length_cons] at hs
  omega

-- A type takes at least one character.
theorem length_of_read {s rest : List Char} {ty : JvmType} (h : read s = some (ty, rest)) :
    rest.length < s.length := by
  fun_induction read s generalizing ty rest with
  | case10 s c after hd =>
    obtain ⟨-, rfl⟩ := by simpa using h
    have := length_of_dropWhile_eq_cons hd
    simp only [List.length_cons]
    omega
  | case12 s ih =>
    obtain ⟨⟨component, after⟩, hr, he⟩ := Option.map_eq_some_iff.1 h
    obtain ⟨-, rfl⟩ := by simpa using he
    have := ih hr
    simp only [List.length_cons]
    omega
  | _ => simp_all

-- Reads a text that is one type and nothing else.
def ofDescriptor? (text : String) : Option JvmType :=
  match read text.toList with
  | some (ty, []) => some ty
  | _ => none

-- The characters from a byte offset on, if a character starts there.
def fromOffset : List Char → Nat → Option (List Char)
  | s, 0 => some s
  | [], _ + 1 => none
  | c :: s, n => if c.utf8Size ≤ n then fromOffset s (n - c.utf8Size) else none

-- Reads the type at a byte offset and returns the offset behind it.
def readAt? (text : String) (offset : Nat) : Option (JvmType × Nat) := do
  let (ty, rest) ← read (← fromOffset text.toList offset)
  return (ty, text.utf8ByteSize - (String.ofList rest).utf8ByteSize)

-- The type that a class constant names: an array by its descriptor, a class by its name.
def ofClassName? (name : String) : Option JvmType :=
  match name.toList with
  | [] => none
  | '[' :: _ => ofDescriptor? name
  | _ => some (.reference name)

end JvmType

-- What a method takes and returns.
structure MethodDescriptor where
  parameters : List JvmType
  result : JvmType
deriving DecidableEq, Inhabited

namespace MethodDescriptor

def descriptor (d : MethodDescriptor) : String :=
  "(" ++ String.join (d.parameters.map JvmType.descriptor) ++ ")" ++ d.result.descriptor

-- The number of local slots that the parameters fill. It is counted in two bytes.
def slots (d : MethodDescriptor) : UInt16 :=
  d.parameters.foldr (fun ty n => .ofNat ty.category + n) 0

-- Reads types until `width` characters are used up. The last type may run past them.
def readParameters (width : Nat) (s : List Char) : Option (List JvmType) :=
  if width = 0 then some []
  else
    match h : JvmType.read s with
    | none => none
    | some (ty, rest) =>
      have := JvmType.length_of_read h
      (readParameters (width - (s.length - rest.length)) rest).map (ty :: ·)
termination_by s.length

-- The parameters end at the first closing parenthesis, and the result is the type behind it.
def ofDescriptor? (text : String) : Option MethodDescriptor :=
  match text.toList with
  | '(' :: s =>
    match s.dropWhile (· != ')') with
    | _ :: after => do
      let parameters ← readParameters (s.takeWhile (· != ')')).length s
      let (result, _) ← JvmType.read after
      return ⟨parameters, result⟩
    | [] => none
  | _ => none

end MethodDescriptor

end JvmLift
