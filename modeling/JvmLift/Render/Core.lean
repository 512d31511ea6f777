import JvmLift.Render.Rule
import JvmLift.Text.Quoted

namespace JvmLift.Render

open Decimal

-- The name that a wrapper class has for an infinite value.
def infinityName (wrapper : String) (negative : Bool) : String :=
  wrapper ++ (if negative then ".NEGATIVE_INFINITY" else ".POSITIVE_INFINITY")

def constantText (ctx : Context) : Constant → String
  | .null => "null"
  | .int value => toString value.toInt
  | .long value => toString value.toInt ++ "L"
  | .float value =>
    match value.value with
    | .nan => "Float.NaN"
    | .infinite negative => infinityName "Float" negative
    | .finite .. => value.text .source ++ "F"
  | .double value =>
    match value.value with
    | .nan => "Double.NaN"
    | .infinite negative => infinityName "Double" negative
    | .finite .. => value.text .source
  | .boolean value => if value then "true" else "false"
  | .string text => Text.quote text
  | .classOf ty => ctx.typeName ty ++ ".class"

def isThis (e : Element) : Bool :=
  e.localVar?.any fun v => v.slot = 0 && v.name = "this"

def incrementText (name : String) (delta : Int32) (affix : Affix) : String :=
  if delta = 1 then
    if affix = .before then "++" ++ name else name ++ "++"
  else if delta = -1 then
    if affix = .before then "--" ++ name else name ++ "--"
  else if delta < 0 then name ++ " -= " ++ toString (-delta.toInt)
  else name ++ " += " ++ toString delta.toInt

-- Operands of a binary operator are parenthesized by precedence. All operators associate to the
-- left, so an operator of equal precedence keeps its parentheses on the right only.
def leftOperand (op : BinaryOp) (left : Element) (text : String) : String :=
  match left.shape with
  | .binary _ inner _ _ => if inner.precedence < op.precedence then "(" ++ text ++ ")" else text
  | _ => text

def rightOperand (op : BinaryOp) (right : Element) (text : String) : String :=
  match right.shape with
  | .binary _ inner _ _ => if inner.precedence ≤ op.precedence then "(" ++ text ++ ")" else text
  | _ => text

-- The class whose comparison a three-way comparison is written with.
def comparisonClass (ty : JvmType) : String :=
  match ty with
  | .long => "Long"
  | .float => "Float"
  | _ => "Double"

-- What stands in front of a member of a target or of a class, if anything does.
def qualifier? {e : Element} (rest : Rest e) (ctx : Context) (target : Option Element)
    (h : ∀ c ∈ target, c ∈ e.children) (owner : JvmType) :
    Except RenderError (Option String) :=
  match target with
  | some t =>
    if isThis t && ctx.style.omitThis then .ok none
    else some <$> rest.childOperand ctx t (h t rfl)
  | none => .ok (if ctx.isCurrent owner then none else some (ctx.typeName owner))

def qualified (qualifier : Option String) (name : String) : String :=
  match qualifier with
  | some q => q ++ "." ++ name
  | none => name

def fieldText {e : Element} (rest : Rest e) (ctx : Context) (f : FieldAccess Element)
    (h : ∀ c ∈ f.target, c ∈ e.children) : Rendered := do
  return qualified (← qualifier? rest ctx f.target h f.owner) f.name

def argumentList (args : List String) : String :=
  "(" ++ ", ".intercalate args ++ ")"

-- A call as it is. The call of another constructor is written with `this` or `super`.
def callText {e : Element} (rest : Rest e) (ctx : Context) (c : Call Element)
    (ht : ∀ t ∈ c.target, t ∈ e.children) (ha : ∀ a ∈ c.args, a ∈ e.children) : Rendered := do
  let args := argumentList (← rest.children ctx c.args ha)
  if c.isConstructor then
    match c, ht with
    | ⟨owner, _, _, some t, _, _⟩, ht =>
      if isThis t then return (if ctx.isCurrent owner then "this" else "super") ++ args
      else return (← rest.childOperand ctx t (ht t rfl)) ++ ".<init>" ++ args
    | ⟨owner, _, _, none, _, _⟩, _ => return ctx.typeName owner ++ ".<init>" ++ args
  else return qualified (← qualifier? rest ctx c.target ht c.owner) c.name ++ args

theorem arg_mem_call {c : Call Element} {stamp : Stamp} {a : Element} (h : a ∈ c.args) :
    a ∈ (Element.mk (.call c) stamp).children :=
  List.mem_append_right _ h

theorem target_mem_call {c : Call Element} {stamp : Stamp} {t : Element} (h : t ∈ c.target) :
    t ∈ (Element.mk (.call c) stamp).children :=
  List.mem_append_left _ (Option.mem_toList.2 h)

-- The allocation of an array whose elements are not listed. Only the outer dimension has a length.
def newArrayText (ctx : Context) (component : JvmType) (length : String) : String :=
  let (base, dimensions) := component.base
  "new " ++ ctx.typeName base ++ "[" ++ length ++ "]" ++
    String.join (List.replicate dimensions "[]")

-- Initializers by position. Those for one position keep their order.
def sortInitializers (initializers : List (Int32 × Element)) : List (Int32 × Element) :=
  sorted (fun a b => a.1 ≤ b.1) initializers

-- A reference to a method or to a constructor.
def referenceText (ctx : Context) (l : Lambda Element) (receiver : Option String) : String :=
  receiver.getD (ctx.typeName l.declaring) ++ "::" ++
    if l.kind = .newInvokeSpecial then "new" else l.backing

def block (ctx : Context) (head : String) (statements : List String) : String :=
  head ++ " \x7b\n" ++ ctx.indented.lines statements ++ "\n" ++ ctx.indent ++ "\x7d"

-- The statements of the body of a lambda, without a return at the end.
def bodyStatements (body : List Element) : List Element :=
  match body.getLast? with
  | some ⟨.ret, _⟩ => body.dropLast
  | _ => body

-- A lambda with the parameters and the body of the method behind it.
def lambdaText {e : Element} (rest : Rest e) (ctx : Context) (l : Lambda Element) : Rendered := do
  let descriptor := l.backingSignature.descriptor
  match ctx.method? l.declaring l.backing descriptor with
  | none =>
    throw (.unresolvedMethod (ctx.typeName l.declaring ++ "#" ++ l.backing ++ descriptor))
  | some method =>
    let parameters := (method.parameters.drop l.enclosed.length).map (·.name)
    let head := argumentList parameters ++ " ->"
    match method.decompile with
    | .error f => throw (.fault f)
    | .ok body =>
      match bodyStatements body with
      | [] => return head ++ " \x7b\x7d"
      | [⟨.returnValue value, _⟩] => return head ++ " " ++ (← rest.body ctx value)
      | [statement] =>
        if statement.isExpression then return head ++ " " ++ (← rest.body ctx statement)
        else return block ctx head [← rest.body ctx.indented statement]
      | statements => return block ctx head (← statements.mapM (rest.body ctx.indented))

-- The two sides of a branch. A three-way comparison with zero is written as what it compares.
def branchOperands {left right : Element} {op : BinaryOp} {target : Nat} {stamp : Stamp}
    (rest : Rest ⟨.branch left op right target, stamp⟩) (ctx : Context) :
    Except RenderError (String × String) := do
  match left, rest with
  | ⟨.compare l r, s⟩, rest =>
    if right.intConstant? = some 0 then
      return (← rest.part ctx l (by simp +arith), ← rest.part ctx r (by simp +arith))
    else
      return (← rest.child ctx ⟨.compare l r, s⟩ (by simp), ← rest.child ctx right (by simp))
  | left, rest => return (← rest.child ctx left (by simp), ← rest.child ctx right (by simp))

-- How elements are written where no special rule applies.
def plain : (e : Element) → Context → Rest e → Rendered
  | ⟨.constant value _, _⟩, ctx, _ => return constantText ctx value
  | ⟨.localVar v, _⟩, ctx, _ => return (ctx.binding? v.slot).getD v.name
  | ⟨.field f, _⟩, ctx, rest => fieldText rest ctx f fun _ h => Option.mem_toList.2 h
  | ⟨.arrayLoad array index _, _⟩, ctx, rest => do
    let array ← rest.childOperand ctx array (by simp)
    let index ← rest.child ctx index (by simp)
    return array ++ "[" ++ index ++ "]"
  | ⟨.binary left op right _, _⟩, ctx, rest => do
    let l ← rest.child ctx left (by simp)
    let r ← rest.child ctx right (by simp)
    return leftOperand op left l ++ " " ++ op.token ++ " " ++ rightOperand op right r
  | ⟨.unary operand op _, _⟩, ctx, rest => do
    return op.token ++ (← rest.childOperand ctx operand (by simp))
  | ⟨.compare left right, _⟩, ctx, rest => do
    let l ← rest.child ctx left (by simp)
    let r ← rest.child ctx right (by simp)
    return comparisonClass left.ty ++ ".compare" ++ argumentList [l, r]
  | ⟨.cast value ty, _⟩, ctx, rest => do
    let value ← rest.childOperand ctx value (by simp)
    return "(" ++ ctx.typeName ty ++ ") " ++ value
  | ⟨.instanceOf value ty, _⟩, ctx, rest => do
    let value ← rest.childOperand ctx value (by simp)
    return value ++ " instanceof " ++ ctx.typeName ty
  | ⟨.increment v delta _ affix, _⟩, _, _ => return incrementText v.name delta affix
  | ⟨.call c, _⟩, ctx, rest =>
    callText rest ctx c (fun _ h => target_mem_call h) fun _ h => arg_mem_call h
  | ⟨.allocate ty, _⟩, ctx, _ => return "new " ++ ctx.typeName ty ++ "<uninitialized>"
  | ⟨.newInstance ty _ args, _⟩, ctx, rest => do
    return "new " ++ ctx.typeName ty ++ argumentList (← rest.children ctx args fun _ h => h)
  | ⟨.newArray _ component length [], _⟩, ctx, rest => do
    let length ← rest.child ctx length (by simp)
    return newArrayText ctx component length
  | ⟨.newArray _ component _ initializers, _⟩, ctx, rest => do
    let values ← rest.children ctx ((sortInitializers initializers).map (·.2)) fun c h => by
      have hp := (sorted_perm (fun a b => decide (a.1 ≤ b.1)) initializers).map (·.2)
      exact List.mem_cons_of_mem _ (hp.mem_iff.1 h)
    return "new " ++ ctx.typeName component ++ "[] \x7b " ++ ", ".intercalate values ++ " \x7d"
  | ⟨.lambda l, _⟩, ctx, rest =>
    if "lambda$".isPrefixOf l.backing then lambdaText rest ctx l
    else
      match l, rest with
      | ⟨none, _, _, _, _, _, _, _, _⟩, _ => return referenceText ctx l none
      | ⟨some receiver, _, _, _, _, _, _, _, _⟩, rest => do
        let receiver ← rest.childOperand ctx receiver (by simp)
        return referenceText ctx l (some receiver)
  | ⟨.assign _ name ty value, _⟩, ctx, rest => do
    let value ← rest.child ctx value (by simp)
    return ctx.typeName ty ++ " " ++ name ++ " = " ++ value
  | ⟨.assignField f value, _⟩, ctx, rest => do
    let field ← fieldText rest ctx f fun _ h =>
      List.mem_append_left _ (Option.mem_toList.2 h)
    let value ← rest.child ctx value (by simp)
    return field ++ " = " ++ value
  | ⟨.arrayStore array index value, _⟩, ctx, rest => do
    let array ← rest.childOperand ctx array (by simp)
    let index ← rest.child ctx index (by simp)
    let value ← rest.child ctx value (by simp)
    return array ++ "[" ++ index ++ "] = " ++ value
  | ⟨.ret, _⟩, _, _ => return "return"
  | ⟨.returnValue value, _⟩, ctx, rest => do
    return "return " ++ (← rest.child ctx value (by simp))
  | ⟨.branch left op right target, _⟩, ctx, rest => do
    let (l, r) ← branchOperands rest ctx
    return "if (" ++ l ++ " " ++ op.token ++ " " ++ r ++ ") goto " ++ toString target
  | ⟨.jump target, _⟩, _, _ => return "goto " ++ toString target
  | ⟨.throw value, _⟩, ctx, rest => do
    return "throw " ++ (← rest.child ctx value (by simp))

-- The value that a call wraps into an object of a wrapper class or takes out of one.
def boxedValue? (c : Call Element) : Option Element := do
  let primitive ← JvmType.unboxed? (← c.owner.className?)
  match c.target, c.args with
  | none, [value] =>
    if c.name = "valueOf" && c.signature.parameters.head? = some primitive then some value else none
  | some target, [] =>
    if c.name = primitive.sourceName true ++ "Value" then some target else none
  | _, _ => none

theorem boxedValue_mem {c : Call Element} {stamp : Stamp} {value : Element}
    (h : boxedValue? c = some value) : value ∈ (Element.mk (.call c) stamp).children := by
  simp only [boxedValue?, Option.bind_eq_bind, Option.bind_eq_some_iff] at h
  obtain ⟨_, _, _, _, h⟩ := h
  split at h <;> simp_all

-- A boxing or unboxing call is written as the value, and a boolean constant by its name.
def boxed : (e : Element) → Context → Rest e → Rendered
  | ⟨.call c, _⟩, ctx, rest =>
    match h : boxedValue? c with
    | some value =>
      match c.signature.parameters, value.intConstant? with
      | .boolean :: _, some 0 => return "false"
      | .boolean :: _, some 1 => return "true"
      | _, _ => rest.child ctx value (boxedValue_mem h)
    | none => throw (.unsupported .call)
  | e, _, _ => throw (.unsupported e.kind)

-- Whether a call looks like one of a method that a compiler made to reach a private member.
def isAccessorCall (c : Call Element) : Bool :=
  "access$".isPrefixOf c.name && c.target.isNone

-- The slots of parameters, from a first slot on.
def parameterSlots (first : Nat) : List JvmType → List UInt16
  | [] => []
  | ty :: rest => .ofNat first :: parameterSlots (first + ty.category) rest

-- The expression that an accessor returns, with the texts of the arguments in the places of the
-- parameters. There is none if the accessor has any other shape or cannot be read.
def accessorText? {e : Element} (rest : Rest e) (ctx : Context) (c : Call Element)
    (ha : ∀ a ∈ c.args, a ∈ e.children) : Option String := do
  let method ← ctx.method? c.owner c.name c.signature.descriptor
  match method.decompile with
  | .ok [⟨.returnValue value, _⟩] =>
    let slots := parameterSlots method.firstParameterSlot c.signature.parameters
    let args ← (rest.childOperands ctx (c.args.take slots.length)
      fun a h => ha a (List.mem_of_mem_take h)).toOption
    (rest.body { ctx with bindings := slots.zip args } value).toOption
  | _ => none

-- A call of an accessor is written as what the accessor does if that is known.
def accessor : (e : Element) → Context → Rest e → Rendered
  | ⟨.call c, stamp⟩, ctx, rest =>
    match accessorText? rest ctx c fun _ h => arg_mem_call h with
    | some text => return text
    | none => plain ⟨.call c, stamp⟩ ctx rest
  | e, ctx, rest => plain e ctx rest

namespace Registry

-- The rules for every kind of element.
def core : Registry :=
  ofDeclarations <|
    Kind.all.map (fun kind => (kind, { render := plain })) ++
    [(.call, {
        priority := .high
        applies := fun e _ => (e.call?.bind boxedValue?).isSome
        render := boxed }),
     (.call, {
        priority := .high
        applies := fun e ctx => e.call?.any isAccessorCall && ctx.resolver.isSome
        render := accessor })]

end Registry

end JvmLift.Render
