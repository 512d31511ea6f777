import JvmLift.Registry

namespace JvmLift.Instruction.Call

-- Calls the method that an instruction names. A constructor yields its object.
def call (index : UInt16) (isStatic : Bool) : Action Unit := do
  let member ← (← get).pool.methodRef index
  let signature ← MethodDescriptor.ofDescriptor member.descriptor
  let owner := JvmType.reference member.owner
  let args ← Action.popMany signature.parameters.length
  let target ← if isStatic then pure none else some <$> Action.pop
  let ty := if member.name = "<init>" then owner else signature.result
  Action.push (.ofShape (.call ⟨owner, member.name, signature, target, args, ty⟩))

open Opcode Declaration in
def rules : List Declaration :=
  [on [invokevirtual, invokespecial, invokestatic] fun code => do
     call (← Action.read Reading.u16) (code = invokestatic),
   on [invokeinterface] fun _ => do
     let index ← Action.read Reading.u16
     if (← Action.read Reading.u8) = 0 then throw .zeroArgumentCount
     discard (Action.read Reading.u8)
     call index false]

end JvmLift.Instruction.Call
