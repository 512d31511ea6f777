import JvmLift.Instruction.Literal

namespace JvmLift.Instruction.Array

def allocate (component : JvmType) : Action Unit := do
  let length ← Action.pop
  Action.push (.ofShape (.newArray (.array component) component length []))

-- Whether the next instruction pushes a constant that can be an index.
def indexFollows : Action Bool := do
  return (← Action.followingCode?).any fun code =>
    code ∈ Opcode.range Opcode.iconst0 Opcode.iconst5 ||
      code = Opcode.bipush || code = Opcode.sipush

-- The type of an element that is read from an array. One code serves bytes and booleans alike.
def loadedType (code : Opcode) (array : JvmType) : Except Fault JvmType :=
  if code = Opcode.iaload then .ok .int
  else if code = Opcode.laload then .ok .long
  else if code = Opcode.faload then .ok .float
  else if code = Opcode.daload then .ok .double
  else if code = Opcode.caload then .ok .char
  else if code = Opcode.saload then .ok .short
  else
    match array.component? with
    | some component => .ok component
    | none => if code = Opcode.baload then .ok .byte else .error (.notAnArray array)

def load (code : Opcode) : Action Unit := do
  let index ← Action.pop
  let array ← Action.pop
  match loadedType code array.ty with
  | .ok ty => Action.push (.ofShape (.arrayLoad array index ty))
  | .error fault => throw fault

-- A store into an array that is still on the stack only as a new one adds an initializer to it.
def store : Action Unit := do
  let value ← Action.pop
  let index ← Action.pop
  let array ← Action.pop
  match array.shape with
  | .newArray ty component length initializers =>
    match index.intConstant? with
    | some position =>
      Action.push ⟨.newArray ty component length (initializers ++ [(position, value)]), array.stamp⟩
    | none => throw .initializerIndex
  | _ => Action.enlist (.ofShape (.arrayStore array index value))

-- The copy of a new array that an initializer is stored into is no copy.
def copy : Declaration :=
  .override [Opcode.dup] (·.topIs .newArray) fun _ => do
    unless ← indexFollows do
      Action.push (← Action.peek)

open Opcode Declaration in
def rules : List Declaration :=
  [on [newarray] fun _ => do
     let code ← Action.read Reading.u8
     match JvmType.ofArrayCode? code with
     | some component => allocate component
     | none => throw (.arrayCode code),
   on [anewarray] fun _ => do
     allocate (← Action.classType (← Action.read Reading.u16)),
   copy,
   on [arraylength] fun _ => do
     let array ← Action.pop
     Action.push (.ofShape (.field ⟨some array, array.ty, .int, "length"⟩)),
   on (range iaload saload) load,
   on (range iastore sastore) fun _ => store]

end JvmLift.Instruction.Array
