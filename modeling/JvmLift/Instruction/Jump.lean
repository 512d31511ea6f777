import JvmLift.Registry

namespace JvmLift.Instruction.Jump

-- Where a jump leads to. The offset counts from the jump itself.
def target (s : State) (offset : Int) : Except Fault Nat :=
  let target := s.instructionPc + offset
  if target < 0 then .error (.negativeTarget s.instructionPc target) else .ok target.toNat

def requireTarget (offset : Int) : Action Nat := do
  match target (← get) offset with
  | .ok pc => return pc
  | .error fault => throw fault

-- A jump out of the code towards its front ends the run.
def jump (offset : Int) : Action Unit := do
  let pc ← requireTarget offset
  if pc < (← get).startPc then Action.abort
  else Action.enlist (.ofShape (.jump pc))

def branch (left : Element) (op : BinaryOp) (right : Element) : Action Unit := do
  let offset ← Action.read Reading.i16
  Action.enlist (.ofShape (.branch left op right (← requireTarget offset.toInt)))

-- The comparisons in the order in which both families of conditional jumps have them.
def comparisons : List BinaryOp :=
  [.eq, .ne, .lt, .ge, .gt, .le]

def comparison (position : Opcode) : BinaryOp :=
  comparisons.getD position.toNat .le

-- Whether a return instruction is made for values of a type.
def returns (code : Opcode) (ty : JvmType) : Bool :=
  if code = Opcode.ireturn then
    match ty with
    | .int | .boolean | .byte | .short | .char => true
    | _ => false
  else if code = Opcode.lreturn then ty = .long
  else if code = Opcode.freturn then ty = .float
  else if code = Opcode.dreturn then ty = .double
  else !ty.isPrimitive

def returnValue (code : Opcode) : Action Unit := do
  let value ← Action.pop
  unless returns code value.ty do throw (.returnType code value.ty)
  Action.enlist (.ofShape (.returnValue value))

-- Whether the last jump leaves protected code that the run started in.
def leavesTry (s : State) : Bool :=
  !s.aborted && s.lastIs .jump &&
    (s.method.exceptionEndingAt? s.instructionPc).any fun e => e.start.toNat ≤ s.startPc

open Opcode Declaration in
def rules : List Declaration :=
  [on [returnVoid] fun _ => do
     discard Action.reduceAll
     Action.enlist (.ofShape .ret),
   on (range ireturn areturn) returnValue,
   on [goto] fun _ => do
     jump (← Action.read Reading.i16).toInt,
   on [gotoW] fun _ => do
     jump (← Action.read Reading.i32).toInt,
   after [goto, gotoW] .high leavesTry do
     discard Action.removeLastStatement
     Action.abort,
   on (range ifeq ifle) fun code => do
     branch (← Action.pop) (comparison (code - ifeq)) (.int 0),
   on (range ifIcmpeq ifAcmpne) fun code => do
     let right ← Action.pop
     let left ← Action.pop
     let op :=
       if code = ifAcmpeq then .eq
       else if code = ifAcmpne then .ne
       else comparison (code - ifIcmpeq)
     branch left op right,
   on [ifnull, ifnonnull] fun code => do
     branch (← Action.pop) (if code = ifnull then .eq else .ne) .null,
   on [athrow] fun _ => do
     Action.enlist (.ofShape (.throw (← Action.pop)))]

end JvmLift.Instruction.Jump
