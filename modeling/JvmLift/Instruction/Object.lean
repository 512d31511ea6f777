import JvmLift.Instruction.Literal

namespace JvmLift

namespace Element

-- The construction of an object, if the element is the constructor call on a new one.
def constructed? (e : Element) : Option Element :=
  match e.shape with
  | .call c =>
    match c.isConstructor, c.target with
    | true, some ⟨.allocate _, _⟩ => some ⟨.newInstance c.ty c.signature c.args, e.stamp⟩
    | _, _ => none
  | _ => none

end Element

namespace Instruction.Object

-- The field that an instruction names. The object that has it is popped unless it is static.
def field (ofObject : Bool) : Action (FieldAccess Element) := do
  let index ← Action.read Reading.u16
  let member ← (← get).pool.fieldRef index
  match JvmType.ofDescriptor? member.descriptor with
  | none => throw (.fieldDescriptor member.descriptor)
  | some ty =>
    let target ← if ofObject then some <$> Action.pop else pure none
    return ⟨target, .reference member.owner, ty, member.name⟩

-- An object is always allocated together with the copy that its constructor is called on.
def allocate : Action Unit := do
  let ty ← Action.classType (← Action.read Reading.u16)
  let next ← Action.read Reading.instruction
  if next ≠ Opcode.dup then throw (.allocationWithoutDup ty next)
  Action.push (.ofShape (.allocate ty))

-- Drops the cast around the value on top of the stack and makes a statement of the value.
def discardCast : Action Unit := do
  match (← Action.pop).shape with
  | .cast value _ =>
    Action.push value
    discard Action.reduce
  | _ => throw (.unexpected "a cast")

open Opcode Declaration in
def rules : List Declaration :=
  [on [getstatic, getfield] fun code => do
     Action.push (.ofShape (.field (← field (code = getfield)))),
   on [putstatic, putfield] fun code => do
     let value ← Action.pop
     Action.enlist (.ofShape (.assignField (← field (code = putfield)) value)),
   on [new] fun _ => allocate,
   rewriteTop [invokespecial] .high Element.constructed?,
   on [checkcast] fun _ => do
     let ty ← Action.classType (← Action.read Reading.u16)
     Action.push (.ofShape (.cast (← Action.pop) ty)),
   on [instanceof] fun _ => do
     let ty ← Action.classType (← Action.read Reading.u16)
     Action.push (.ofShape (.instanceOf (← Action.pop) ty)),
   -- a cast whose value is discarded comes from a generic result
   override [pop] (·.topIs .cast) fun _ => discardCast]

end Instruction.Object

end JvmLift
