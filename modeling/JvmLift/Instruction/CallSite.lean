import JvmLift.Registry

namespace JvmLift

namespace Element

-- Joins parts to one text with `+`. The first operand is a string, so that no sum is meant.
def concatenation : List Element → Element
  | [] => string ""
  | [part] => part
  | first :: rest =>
    let plus (left right : Element) : Element := ofShape (.binary left .plus right .string)
    rest.foldl plus (if first.ty = .string then first else plus (string "") first)

-- The checks for null that compilers put in front of a method reference, as class and method.
def receiverChecks : List (JvmType × String) :=
  [(.reference "java/util/Objects", "requireNonNull"),
   (.reference "java/lang/Object", "getClass")]

-- Whether a statement checks the receiver of a method reference for null.
def isReceiverCheckOf (statement lambda : Element) : Bool :=
  match lambda.shape, statement.call? with
  | .lambda l, some call =>
    match l.receiver, call.target <|> call.args.head? with
    | some receiver, some checked =>
      l.kind.hasReceiver && (call.owner, call.name) ∈ receiverChecks && checked.same receiver
    | _, _ => false
  | _, _ => false

end Element

namespace Instruction.CallSite

-- The class whose bootstrap methods link concatenations of strings.
def concatenationFactory : String := "java/lang/invoke/StringConcatFactory"

-- A part for the text that has been collected, if there is any. The text is kept backwards.
def textPart (text : List Char) : List Element :=
  if text = [] then [] else [.string (String.ofList text.reverse)]

-- The text of a constant that a recipe includes.
def constantText : Loadable → String
  | .string text => text
  | value => value.text

-- Reads a recipe. The mark one stands for the next argument, the mark two for the next
-- constant, and everything else for itself.
def recipeParts (pool : Pool) :
    List Char → List Char → List Element → List UInt16 → Except Fault (List Element)
  | [], text, _, _ => .ok (textPart text)
  | c :: rest, text, args, constants =>
    if c = '\x01' then
      match args with
      | [] => .error .recipeArguments
      | arg :: args => do
        return textPart text ++ arg :: (← recipeParts pool rest [] args constants)
    else if c = '\x02' then
      match constants with
      | [] => .error .recipeConstants
      | index :: constants =>
        match pool.loadable index with
        | .error e => .error (.classFile e)
        | .ok value => do
          return textPart text ++ .string (constantText value) ::
            (← recipeParts pool rest [] args constants)
    else recipeParts pool rest (c :: text) args constants

-- Joins the arguments of a call site by its recipe, or one after the other if it has none.
def concatenate (signature : MethodDescriptor) (arguments : List UInt16) : Action Unit := do
  let args ← Action.popMany signature.parameters.length
  match arguments with
  | [] => Action.push (.concatenation args)
  | recipe :: constants =>
    let pool := (← get).pool
    match ← pool.loadable recipe with
    | .string text =>
      match recipeParts pool text.toList [] args constants with
      | .ok parts => Action.push (.concatenation parts)
      | .error fault => throw fault
    | _ => throw .recipe

-- The variable that a captured value is.
def capturedVariable (e : Element) : Except Fault LocalRef :=
  match e.localVar? with
  | some v => .ok v
  | none => .error (.capturedValue e.kind)

-- Makes the object of a functional interface. The values it captures are the variables of the
-- backing method that the interface does not pass, and at most one receiver below them.
def capture (index : UInt16) (site : CallSiteRef) (signature : MethodDescriptor)
    (functional backing : UInt16) : Action Unit := do
  let pool := (← get).pool
  let interfaceSignature ← MethodDescriptor.ofDescriptor (← pool.methodType functional)
  let handle ← pool.methodHandle backing
  let backingSignature ← MethodDescriptor.ofDescriptor handle.member.descriptor
  let captured := signature.parameters.length
  let enclosed := backingSignature.parameters.length - interfaceSignature.parameters.length
  unless captured = enclosed || captured = enclosed + 1 do
    throw (.captureCount index captured enclosed)
  match (← Action.popMany enclosed).mapM capturedVariable with
  | .error fault => throw fault
  | .ok enclosedVars =>
    let receiver ← if captured = enclosed then pure none else some <$> Action.pop
    Action.push (.ofShape (.lambda
      ⟨receiver, handle.kind, signature.result, site.name, interfaceSignature,
        .reference handle.member.owner, handle.member.name, backingSignature, enclosedVars⟩))

-- Executes the call site that an instruction names.
def invoke (index : UInt16) : Action Unit := do
  let s ← get
  let site ← s.pool.invokeDynamic index
  match s.method.bootstrapMethod? site.bootstrap with
  | none => throw (.noBootstrapMethod site.bootstrap index)
  | some bootstrap =>
    let factory ← s.pool.methodHandle bootstrap.handle
    let signature ← MethodDescriptor.ofDescriptor site.descriptor
    if factory.member.owner = concatenationFactory then
      concatenate signature bootstrap.arguments
    else
      match bootstrap.arguments with
      | [functional, backing, _] => capture index site signature functional backing
      | arguments => throw (.bootstrapArguments index arguments.length)

-- Whether the last statement checks the receiver of the lambda on top of the stack.
def followsCheck (s : State) : Bool :=
  match s.lastStatement? 0, s.peekAt? 0 with
  | some statement, some lambda => statement.isReceiverCheckOf lambda
  | _, _ => false

open Opcode Declaration in
def rules : List Declaration :=
  [on [invokedynamic] fun _ => do
     let index ← Action.read Reading.u16
     discard (Action.read Reading.u16)
     invoke index,
   after [invokedynamic] .high followsCheck do
     discard Action.removeLastStatement]

end Instruction.CallSite

end JvmLift
