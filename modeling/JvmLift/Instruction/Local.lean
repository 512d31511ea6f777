import JvmLift.Registry

namespace JvmLift

namespace Element

-- Whether the element is a pending increment of the variable that another one reads.
def isPendingIncrementOf (e load : Element) : Bool :=
  match e.shape, load.shape with
  | .increment v _ _ .pending, .localVar u => v.slot = u.slot && v.name = u.name
  | _, _ => false

-- The increment with its affix settled.
def withAffix (e : Element) (affix : Affix) : Element :=
  match e.shape with
  | .increment v delta ty _ => ⟨.increment v delta ty affix, e.stamp⟩
  | _ => e

-- Reads `v = (T) (v + 1)` or `v = (T) (v - 1)` with a type T narrower than int as an increment
-- of `v`, and gives the delta and the type. Compilers write increments of such variables so.
def narrowIncrement? (statement : Element) (v : LocalRef) : Option (Int32 × JvmType) :=
  match statement.shape with
  | .assign slot _ _ ⟨.cast ⟨.binary left op right _, _⟩ ty, _⟩ =>
    let matched := slot = v.slot && ty.isNarrow && left.localVar? = some v && right.isInt 1
    match op with
    | .plus => if matched then some (1, ty) else none
    | .minus => if matched then some (-1, ty) else none
    | _ => none
  | _ => none

end Element

namespace Instruction.Local

def load (slot : UInt16) : Action Unit := do
  let s ← get
  Action.push (.ofShape (.localVar (← Action.local? slot s.instructionPc)))

-- A store opens the scope of its variable, so the slot is looked up behind the instruction first.
def store (slot : UInt16) : Action Unit := do
  let value ← Action.pop
  let s ← get
  let v ← match s.local? slot s.pc with
    | .ok v => pure v
    | .error _ => Action.local? slot s.instructionPc
  Action.enlist (.ofShape (.assign slot v.name v.ty value))

-- An increment leaves nothing on the operand stack. It is kept on the symbolic one until it is
-- clear how its value is used.
def increment (slot : UInt16) (delta : Int32) : Action Unit := do
  let v ← Action.local? slot (← get).instructionPc
  Action.push (.ofShape (.increment v delta v.ty .pending))

-- Executes an instruction with a slot of two bytes.
def wide : Action Unit := do
  let code ← Action.read Reading.instruction
  let slot ← Action.read Reading.u16
  if code ∈ Opcode.range Opcode.iload Opcode.aload then load slot
  else if code ∈ Opcode.range Opcode.istore Opcode.astore then store slot
  else if code = Opcode.iinc then
    increment slot (← Action.read Reading.i16).toInt32
  else throw (.unsupportedWide code)

-- Whether the two elements on top of the stack, the upper one last, have a relation.
def topTwo (s : State) (related : Element → Element → Bool) : Bool :=
  match s.peekAt? 1, s.peekAt? 0 with
  | some below, some top => related below top
  | _, _ => false

-- A load below the increment has used the old value.
def useOld : Declaration :=
  .after [Opcode.iinc] .normal (topTwo · fun below top => top.isPendingIncrementOf below) do
    let e ← Action.pop
    discard Action.pop
    Action.push (e.withAffix .after)

-- A load above the increment uses the new value.
def useNew : Declaration :=
  .after Opcode.primitiveLoads .normal
    (topTwo · fun below top => below.isPendingIncrementOf top) do
      discard Action.pop
      let e ← Action.pop
      Action.push (e.withAffix .before)

-- The narrow increment in the last statement of the variable that the top of the stack reads.
def narrowIncrement? (s : State) : Option (LocalRef × Int32 × JvmType) := do
  let v ← (← s.peekAt? 0).localVar?
  let (delta, ty) ← (← s.lastStatement? 0).narrowIncrement? v
  return (v, delta, ty)

-- Puts the increment in the place of the assignment and the read.
def foldNarrow (affix : Affix) : Action Unit := do
  let s ← get
  match narrowIncrement? s with
  | some (v, delta, ty) =>
    discard Action.pop
    let assignment ← Action.removeLastStatement
    Action.push ⟨.increment v delta ty affix, assignment.stamp⟩
  | none => return

open Opcode Declaration in
def rules : List Declaration :=
  [on (range iload aload) fun _ => do
     load (← Action.read Reading.u8).toUInt16,
   on shortLoads fun code => load ((code - iload0) % 4).toUInt16,
   on (range istore astore) fun _ => do
     store (← Action.read Reading.u8).toUInt16,
   on shortStores fun code => store ((code - istore0) % 4).toUInt16,
   on [Opcode.wide] fun _ => wide,
   on [iinc] fun _ => do
     let slot ← Action.read Reading.u8
     let delta ← Action.read Reading.i8
     increment slot.toUInt16 delta.toInt32,
   useOld,
   useNew,
   after integerLoads .normal (fun s => (narrowIncrement? s).isSome) (foldNarrow .before),
   after integerStores .normal (fun s => (narrowIncrement? s).isSome) (foldNarrow .after)]

end Instruction.Local

end JvmLift
