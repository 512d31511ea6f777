import JvmLift.Registry

namespace JvmLift.Instruction.Arithmetic

-- The operators in the order of their codes. Each has a code for int and long, and the first
-- five have two more for float and double.
open Opcode in
def binaryOperators : List (Opcode × BinaryOp × JvmType) :=
  [(iadd, .plus, .int), (ladd, .plus, .long), (fadd, .plus, .float), (dadd, .plus, .double),
   (isub, .minus, .int), (lsub, .minus, .long), (fsub, .minus, .float), (dsub, .minus, .double),
   (imul, .multiply, .int), (lmul, .multiply, .long), (fmul, .multiply, .float),
   (dmul, .multiply, .double),
   (idiv, .divide, .int), (ldiv, .divide, .long), (fdiv, .divide, .float),
   (ddiv, .divide, .double),
   (irem, .modulo, .int), (lrem, .modulo, .long), (frem, .modulo, .float),
   (drem, .modulo, .double),
   (ishl, .leftShift, .int), (lshl, .leftShift, .long),
   (ishr, .rightShift, .int), (lshr, .rightShift, .long),
   (iushr, .unsignedRightShift, .int), (lushr, .unsignedRightShift, .long),
   (iand, .and, .int), (land, .and, .long),
   (ior, .or, .int), (lor, .or, .long),
   (ixor, .xor, .int), (lxor, .xor, .long)]

-- The conversions with the types that they convert to.
open Opcode in
def conversions : List (Opcode × JvmType) :=
  [(i2l, .long), (i2f, .float), (i2d, .double),
   (l2i, .int), (l2f, .float), (l2d, .double),
   (f2i, .int), (f2l, .long), (f2d, .double),
   (d2i, .int), (d2l, .long), (d2f, .float),
   (i2b, .byte), (i2c, .char), (i2s, .short)]

def binary (op : BinaryOp) (ty : JvmType) : Action Unit := do
  let right ← Action.pop
  let left ← Action.pop
  Action.push (.ofShape (.binary left op right ty))

def negate : Action Unit := do
  let operand ← Action.pop
  Action.push (.ofShape (.unary operand .neg operand.ty))

def compare : Action Unit := do
  let right ← Action.pop
  let left ← Action.pop
  Action.push (.ofShape (.compare left right))

open Opcode Declaration in
def rules : List Declaration :=
  binaryOperators.map (fun (code, op, ty) => on [code] fun _ => binary op ty) ++
  conversions.map (fun (code, ty) => on [code] fun _ => do
    Action.push (.ofShape (.cast (← Action.pop) ty))) ++
  [on (range ineg dneg) fun _ => negate,
   on (range lcmp dcmpg) fun _ => compare]

end JvmLift.Instruction.Arithmetic
