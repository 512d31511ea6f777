import JvmLift.Registry

namespace JvmLift

namespace Action

-- The type that a class constant names.
def classType (index : UInt16) : Action JvmType := do
  let name ← (← get).pool.className index
  match JvmType.ofClassName? name with
  | some ty => return ty
  | none => throw (.badClassName name)

end Action

namespace Instruction.Literal

-- The bits of zero, one and two in single precision.
def singles : List Decimal.Float32Bits :=
  [⟨0⟩, ⟨0x3f800000⟩, ⟨0x40000000⟩]

-- The bits of zero and one in double precision.
def doubles : List Decimal.Float64Bits :=
  [⟨0⟩, ⟨0x3ff0000000000000⟩]

-- The expression that loads a constant.
def element : Loadable → Except Fault Element
  | .int value => .ok (.int value)
  | .float value => .ok (.float value)
  | .long value => .ok (.long value)
  | .double value => .ok (.double value)
  | .string text => .ok (.string text)
  | .classRef name =>
    match JvmType.ofClassName? name with
    | some ty => .ok (.constant (.classOf ty) .classOf)
    | none => .error (.badClassName name)

-- Pushes a constant of the pool, which must have the category that the instruction is for.
def loadConstant (index : UInt16) (category : Nat) : Action Unit := do
  let value ← (← get).pool.loadable index
  if value.category ≠ category then throw (.constantCategory value index category)
  match element value with
  | .ok e => Action.push e
  | .error fault => throw fault

open Opcode Declaration in
def rules : List Declaration :=
  [on [nop] fun _ => return,
   on [aconstNull] fun _ => Action.push .null,
   on (range iconstM1 iconst5) fun code =>
     Action.push (.int (.ofInt (code.toNat - iconst0.toNat))),
   on (range lconst0 lconst1) fun code =>
     Action.push (.long (.ofInt (code.toNat - lconst0.toNat))),
   on (range fconst0 fconst2) fun code =>
     Action.push (.float (singles.getD (code.toNat - fconst0.toNat) ⟨0⟩)),
   on (range dconst0 dconst1) fun code =>
     Action.push (.double (doubles.getD (code.toNat - dconst0.toNat) ⟨0⟩)),
   on [bipush] fun _ => do
     Action.push (.int (← Action.read Reading.i8).toInt32),
   on [sipush] fun _ => do
     Action.push (.int (← Action.read Reading.i16).toInt32),
   on [ldc] fun _ => do
     loadConstant (← Action.read Reading.u8).toUInt16 1,
   on [ldcW] fun _ => do
     loadConstant (← Action.read Reading.u16) 1,
   on [ldc2W] fun _ => do
     loadConstant (← Action.read Reading.u16) 2]

end Instruction.Literal

end JvmLift
