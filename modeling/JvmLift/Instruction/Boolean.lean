import JvmLift.Registry

namespace JvmLift

namespace Element

-- The boolean that an int constant stands for where a boolean is expected.
def booleanLiteral? (e : Element) : Option Element :=
  if e.isInt 0 then some ((boolean false).stamped e.stamp)
  else if e.isInt 1 then some ((boolean true).stamped e.stamp)
  else none

-- The assignment of an int constant to a boolean variable, as one of a boolean.
def booleanAssignment? (e : Element) : Option Element :=
  match e.shape with
  | .assign slot name .boolean value =>
    value.booleanLiteral?.map fun literal => .ofShape (.assign slot name .boolean literal)
  | _ => none

-- The return of an int constant as one of a boolean.
def booleanReturn? (e : Element) : Option Element :=
  match e.shape with
  | .returnValue value => value.booleanLiteral?.map fun literal => .ofShape (.returnValue literal)
  | _ => none

-- The arguments with int constants replaced where the parameter is a boolean, if there are any.
def booleanArguments? (parameters : List JvmType) (args : List Element) :
    Option (List Element) :=
  let replace? (ty : JvmType) (arg : Element) :=
    if ty = .boolean then arg.booleanLiteral? else none
  if (List.zipWith replace? parameters args).any Option.isSome then
    some (List.zipWith (fun ty arg => (replace? ty arg).getD arg) parameters args)
  else none

-- The call with int constants replaced where the parameter is a boolean.
def booleanCall? (e : Element) : Option Element :=
  match e.shape with
  | .call c =>
    (booleanArguments? c.signature.parameters c.args).map fun args =>
      ⟨.call { c with args }, e.stamp⟩
  | .newInstance ty signature args =>
    (booleanArguments? signature.parameters args).map fun args =>
      ⟨.newInstance ty signature args, e.stamp⟩
  | _ => none

-- The boolean that is true when a branch is not taken.
def untaken (branch : Element) : Except Fault Element :=
  match branch.shape with
  | .branch left op right _ =>
    match op.inverse? with
    | none => .error (.notComparison op)
    | some inverse =>
      if op = .ne && left.ty = .boolean && right.isInt 0 then
        .ok (.ofShape (.unary left .not .boolean))
      else
        match left.shape, right.isInt 0 with
        | .compare l r, true => .ok (.ofShape (.binary l inverse r .boolean))
        | _, _ => .ok (.ofShape (.binary left inverse right .boolean))
  | _ => .error (.unexpected "a branch")

end Element

namespace Instruction.Boolean

-- Whether a branch and a jump have left one on the stack for one way and zero for the other.
def choosesBit (s : State) : Bool :=
  (s.peekAt? 0).any (·.isInt 0) && (s.peekAt? 1).any (·.isInt 1) &&
    (s.lastStatement? 0).any (·.kind = .jump) && (s.lastStatement? 1).any (·.kind = .branch)

-- Puts the condition of the branch in the place of the two constants.
def foldBit : Action Unit := do
  discard Action.pop
  discard Action.pop
  discard Action.removeLastStatement
  match (← Action.removeLastStatement).untaken with
  | .ok condition => Action.push condition
  | .error fault => throw fault

open Opcode Declaration in
def rules : List Declaration :=
  [after [iconst0] .normal choosesBit foldBit,
   rewriteLast integerStores .low fun _ e => e.booleanAssignment?,
   rewriteLast [ireturn] .low fun s e =>
     if s.method.signature.result = .boolean then e.booleanReturn? else none,
   rewriteTop invocations .low Element.booleanCall?]

end Instruction.Boolean

end JvmLift
