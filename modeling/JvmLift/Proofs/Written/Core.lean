import JvmLift.Proofs.Written

namespace JvmLift.Render

-- What a boolean that is boxed as a number is called.
def booleanName? (c : Call Element) (value : Element) : Option Bool :=
  if c.signature.parameters.head? = some .boolean then
    if value.intConstant? = some 0 then some false
    else if value.intConstant? = some 1 then some true
    else none
  else none

-- The method behind the call of an accessor and the expression that it returns.
def accessed? (ctx : Context) (c : Call Element) : Option (Method × Element) :=
  (ctx.method? c.owner c.name c.signature.descriptor).bind fun method =>
    match method.decompile with
    | .ok [⟨.returnValue value, _⟩] => some (method, value)
    | _ => none

-- Whether a call is written as one.
def isPlainCall (ctx : Context) (c : Call Element) : Bool :=
  (boxedValue? c).isNone && !(isAccessorCall c && (accessed? ctx c).isSome) && !c.isConstructor

-- The expression that stands for the body of a lambda.
def bodyValue? (body : List Element) : Option Element :=
  match bodyStatements body with
  | [⟨.returnValue value, _⟩] => some value
  | [statement] => if statement.isExpression then some statement else none
  | _ => none

namespace Registry

variable {depth : Nat} {ctx : Context}

section Values

theorem render_arrayLoad_eq (array index : Element) (ty : JvmType) (stamp : Stamp) :
    core.render depth ctx ⟨.arrayLoad array index ty, stamp⟩ = (do
      let a ← parenthesized array <$> core.render depth ctx array
      let i ← core.render depth ctx index
      return a ++ "[" ++ i ++ "]") :=
  render_plain (e := ⟨.arrayLoad array index ty, stamp⟩) nofun depth ctx

theorem render_arrayLoad {array index : Element} {a i : String}
    (ha : core.render depth ctx array = .ok a) (hi : core.render depth ctx index = .ok i)
    (ty : JvmType) (stamp : Stamp) : core.render depth ctx ⟨.arrayLoad array index ty, stamp⟩ =
      .ok (parenthesized array a ++ "[" ++ i ++ "]") := by
  rw [render_arrayLoad_eq, ha, hi]
  rfl

theorem render_compare {left right : Element} {l r : String}
    (hl : core.render depth ctx left = .ok l) (hr : core.render depth ctx right = .ok r)
    (stamp : Stamp) : core.render depth ctx ⟨.compare left right, stamp⟩ =
      .ok (comparisonClass left.ty ++ ".compare" ++ argumentList [l, r]) := by
  rw [render_plain (e := ⟨.compare left right, stamp⟩) nofun, plain]
  simp only [Rest.child, coreRest, hl, hr]
  rfl

theorem render_cast {value : Element} {text : String}
    (h : core.render depth ctx value = .ok text) (ty : JvmType) (stamp : Stamp) :
    core.render depth ctx ⟨.cast value ty, stamp⟩ =
      .ok ("(" ++ ctx.typeName ty ++ ") " ++ parenthesized value text) := by
  rw [render_plain (e := ⟨.cast value ty, stamp⟩) nofun, plain]
  simp only [Rest.childOperand, Rest.operand, coreRest, h]
  rfl

theorem render_instanceOf {value : Element} {text : String}
    (h : core.render depth ctx value = .ok text) (ty : JvmType) (stamp : Stamp) :
    core.render depth ctx ⟨.instanceOf value ty, stamp⟩ =
      .ok (parenthesized value text ++ " instanceof " ++ ctx.typeName ty) := by
  rw [render_plain (e := ⟨.instanceOf value ty, stamp⟩) nofun, plain]
  simp only [Rest.childOperand, Rest.operand, coreRest, h]
  rfl

theorem render_newInstance {args : List Element} {texts : List String}
    (h : args.mapM (core.render depth ctx) = .ok texts) (ty : JvmType)
    (signature : MethodDescriptor) (stamp : Stamp) :
    core.render depth ctx ⟨.newInstance ty signature args, stamp⟩ =
      .ok ("new " ++ ctx.typeName ty ++ argumentList texts) := by
  rw [← mapM_attach] at h
  rw [render_plain (e := ⟨.newInstance ty signature args, stamp⟩) nofun, plain]
  simp only [Rest.children, Rest.child, coreRest, h]
  rfl

theorem render_allocation {length : Element} {text : String}
    (h : core.render depth ctx length = .ok text) (ty component : JvmType) (stamp : Stamp) :
    core.render depth ctx ⟨.newArray ty component length [], stamp⟩ =
      .ok (newArrayText ctx component text) := by
  rw [render_plain (e := ⟨.newArray ty component length [], stamp⟩) nofun, plain]
  simp only [Rest.child, coreRest, h]
  rfl

end Values

section Members

-- What stands in front of a member: a target unless it goes without saying, or else the class
-- unless that does.
def writtenQualifier (depth : Nat) (ctx : Context) (target : Option Element) (owner : JvmType) :
    Except RenderError (Option String) :=
  match target with
  | some t =>
    if isThis t && ctx.style.omitThis then .ok none
    else some <$> parenthesized t <$> core.render depth ctx t
  | none => .ok (if ctx.isCurrent owner then none else some (ctx.typeName owner))

theorem qualifier?_coreRest {e : Element} (target : Option Element) (owner : JvmType)
    (h : ∀ c ∈ target, c ∈ e.children) :
    qualifier? (coreRest depth e) ctx target h owner = writtenQualifier depth ctx target owner := by
  cases target <;> rfl

-- What it is where the text of the target is known.
def IsQualifier (depth : Nat) (ctx : Context) (target : Option Element) (owner : JvmType)
    (q : Option String) : Prop :=
  match target with
  | some t =>
    if isThis t && ctx.style.omitThis then q = none
    else ∃ text, core.render depth ctx t = .ok text ∧ q = some (parenthesized t text)
  | none => q = if ctx.isCurrent owner then none else some (ctx.typeName owner)

theorem writtenQualifier_of_isQualifier {target : Option Element} {owner : JvmType}
    {q : Option String} (hq : IsQualifier depth ctx target owner q) :
    writtenQualifier depth ctx target owner = .ok q := by
  cases target with
  | none => exact congrArg Except.ok hq.symm
  | some t =>
    simp only [IsQualifier] at hq
    simp only [writtenQualifier]
    split at hq
    · next hthis => rw [if_pos hthis, hq]
    · next hthis =>
      obtain ⟨text, htext, rfl⟩ := hq
      rw [if_neg hthis, htext]
      rfl

theorem render_field_eq (f : FieldAccess Element) (stamp : Stamp) :
    core.render depth ctx ⟨.field f, stamp⟩ =
      (qualified · f.name) <$> writtenQualifier depth ctx f.target f.owner := by
  rw [render_plain (e := ⟨.field f, stamp⟩) nofun, ← qualifier?_coreRest]
  rfl

theorem render_field {f : FieldAccess Element} {q : Option String}
    (hq : IsQualifier depth ctx f.target f.owner q) (stamp : Stamp) :
    core.render depth ctx ⟨.field f, stamp⟩ = .ok (qualified q f.name) := by
  rw [render_field_eq, writtenQualifier_of_isQualifier hq]
  rfl

end Members

section Calls

variable {c : Call Element}

def boxedRule : Rule :=
  { priority := .high
    applies := fun e _ => (e.call?.bind boxedValue?).isSome
    render := boxed }

def accessorRule : Rule :=
  { priority := .high
    applies := fun e ctx => e.call?.any isAccessorCall && ctx.resolver.isSome
    render := accessor }

-- There are two more rules for calls, which come first.
theorem core_rule?_call (c : Call Element) (stamp : Stamp) (ctx : Context) :
    core.rule? ⟨.call c, stamp⟩ ctx =
      if (boxedValue? c).isSome then some boxedRule
      else if isAccessorCall c && ctx.resolver.isSome then some accessorRule
      else some { render := plain } := by
  have hrules : core.rules? .call = some [boxedRule, accessorRule, { render := plain }] := rfl
  have hrule : core.rule? ⟨.call c, stamp⟩ ctx =
      [boxedRule, accessorRule, { render := plain }].find? fun rule =>
        rule.applies ⟨.call c, stamp⟩ ctx := by
    rw [rule?, show Element.kind ⟨.call c, stamp⟩ = .call from rfl, hrules]
    rfl
  have hboxed : boxedRule.applies ⟨.call c, stamp⟩ ctx = (boxedValue? c).isSome := rfl
  have haccessor : accessorRule.applies ⟨.call c, stamp⟩ ctx =
      (isAccessorCall c && ctx.resolver.isSome) := rfl
  rw [hrule, List.find?_cons, hboxed, List.find?_cons, haccessor]
  cases (boxedValue? c).isSome <;> cases isAccessorCall c && ctx.resolver.isSome <;> rfl

-- A wrapper is written as what it wraps or as a name.
theorem render_boxed {value : Element} (h : boxedValue? c = some value) (depth : Nat)
    (ctx : Context) (stamp : Stamp) : core.render depth ctx ⟨.call c, stamp⟩ =
      match booleanName? c value with
      | some b => .ok (if b then "true" else "false")
      | none => core.render depth ctx value := by
  have hrule : core.rule? ⟨.call c, stamp⟩ ctx = some boxedRule := by
    rw [core_rule?_call, h]
    rfl
  rw [render_of_rule hrule]
  show boxed ⟨.call c, stamp⟩ ctx (coreRest depth ⟨.call c, stamp⟩) = _
  rw [boxed]
  split
  · next value' h' =>
    obtain rfl := Option.some.inj (h.symm.trans h')
    split
    · next hparameters hvalue =>
      rw [booleanName?, hparameters, hvalue]
      rfl
    · next hparameters hvalue =>
      rw [booleanName?, hparameters, hvalue]
      rfl
    · next hfalse htrue =>
      have hname : booleanName? c value = none := by
        rw [booleanName?]
        by_cases hhead : c.signature.parameters.head? = some .boolean
        · obtain ⟨tail, hparameters⟩ := List.head?_eq_some_iff.1 hhead
          have hzero : value.intConstant? ≠ some 0 := hfalse tail hparameters
          have hone : value.intConstant? ≠ some 1 := htrue tail hparameters
          rw [if_pos hhead, if_neg hzero, if_neg hone]
        · exact if_neg hhead
      rw [hname]
      rfl
  · next h' => cases h.symm.trans h'

-- The slots of the parameters of an accessor.
def accessorSlots (method : Method) (c : Call Element) : List UInt16 :=
  parameterSlots method.firstParameterSlot c.signature.parameters

theorem accessorText?_eq {e : Element} (rest : Rest e) (ctx : Context) (c : Call Element)
    (ha : ∀ a ∈ c.args, a ∈ e.children) : accessorText? rest ctx c ha =
      (accessed? ctx c).bind fun p =>
        (rest.childOperands ctx (c.args.take (accessorSlots p.1 c).length)
          fun a h => ha a (List.mem_of_mem_take h)).toOption.bind fun args =>
            (rest.body { ctx with bindings := (accessorSlots p.1 c).zip args } p.2).toOption := by
  rw [accessorText?, accessed?]
  show Option.bind _ _ = _
  cases ctx.method? c.owner c.name c.signature.descriptor with
  | none => rfl
  | some method =>
    simp only [Option.bind_some]
    rcases method.decompile with fault | _ | ⟨⟨shape, stamp⟩, _ | ⟨e', es⟩⟩
    · rfl
    · rfl
    · cases shape <;> rfl
    · cases shape <;> rfl

-- The text of what an accessor returns, if the call of one is written as that.
def inlined? (depth : Nat) (ctx : Context) (c : Call Element) : Option String :=
  if isAccessorCall c && ctx.resolver.isSome then
    (accessed? ctx c).bind fun p =>
      ((c.args.take (accessorSlots p.1 c).length).mapM fun a =>
        parenthesized a <$> core.render depth ctx a).toOption.bind fun args =>
          (core.within depth { ctx with bindings := (accessorSlots p.1 c).zip args } p.2).toOption
  else none

theorem accessorText?_coreRest {e : Element} (ha : ∀ a ∈ c.args, a ∈ e.children)
    (hc : isAccessorCall c && ctx.resolver.isSome) :
    accessorText? (coreRest depth e) ctx c ha = inlined? depth ctx c := by
  rw [accessorText?_eq, inlined?, if_pos hc]
  refine congrArg _ (funext fun p => ?_)
  rw [← mapM_attach]
  rfl

-- A call is written as what it wraps, as what it reaches, or as it is.
theorem render_call_eq (hc : c.isConstructor = false) (stamp : Stamp) :
    core.render depth ctx ⟨.call c, stamp⟩ =
      match boxedValue? c with
      | some value =>
        match booleanName? c value with
        | some b => .ok (if b then "true" else "false")
        | none => core.render depth ctx value
      | none =>
        match inlined? depth ctx c with
        | some text => .ok text
        | none => do
          let args ← c.args.mapM (core.render depth ctx)
          let q ← writtenQualifier depth ctx c.target c.owner
          return qualified q c.name ++ argumentList args := by
  have hplain : plain ⟨.call c, stamp⟩ ctx (coreRest depth ⟨.call c, stamp⟩) = (do
      let args ← c.args.mapM (core.render depth ctx)
      let q ← writtenQualifier depth ctx c.target c.owner
      return qualified q c.name ++ argumentList args) := by
    rw [plain, callText, qualifier?_coreRest, ← mapM_attach]
    simp only [hc, Bool.false_eq_true, if_false]
    rfl
  cases hboxed : boxedValue? c with
  | some value => exact render_boxed hboxed depth ctx stamp
  | none =>
    by_cases haccessor : (isAccessorCall c && ctx.resolver.isSome)
    · have hrule : core.rule? ⟨.call c, stamp⟩ ctx = some accessorRule := by
        rw [core_rule?_call, hboxed, haccessor]
        rfl
      rw [render_of_rule hrule]
      show accessor ⟨.call c, stamp⟩ ctx (coreRest depth ⟨.call c, stamp⟩) = _
      rw [accessor, accessorText?_coreRest _ haccessor, hplain]
      rfl
    · have hrule : core.rule? ⟨.call c, stamp⟩ ctx = some { render := plain } := by
        rw [core_rule?_call, hboxed, if_neg (by simp), if_neg haccessor]
      rw [render_of_rule hrule, inlined?, if_neg haccessor]
      exact hplain

theorem isConstructor_of_isAccessorCall (h : isAccessorCall c) : c.isConstructor = false := by
  have hprefix := (Bool.and_eq_true_iff.1 h).1
  rw [Call.isConstructor, decide_eq_false_iff_not]
  intro hname
  rw [hname] at hprefix
  revert hprefix
  decide +kernel

theorem isSome_resolver_of_accessed? {p : Method × Element} (h : accessed? ctx c = some p) :
    ctx.resolver.isSome := by
  cases hnone : ctx.resolver with
  | some r => rfl
  | none => simp [accessed?, Context.method?, hnone] at h

theorem inlined?_eq_some {method : Method} {value : Element} {texts : List String} {text : String}
    (haccessor : isAccessorCall c) (h : accessed? ctx c = some (method, value))
    (hargs : ((c.args.take (accessorSlots method c).length).mapM fun a =>
      parenthesized a <$> core.render (depth + 1) ctx a) = .ok texts)
    (hvalue : core.render depth { ctx with bindings := (accessorSlots method c).zip texts } value =
      .ok text) : inlined? (depth + 1) ctx c = some text := by
  have hrule : isAccessorCall c && ctx.resolver.isSome :=
    Bool.and_eq_true_iff.2 ⟨haccessor, isSome_resolver_of_accessed? h⟩
  rw [inlined?, if_pos hrule, h, Option.bind_some, hargs]
  exact congrArg Except.toOption hvalue

-- An accessor is written as what it returns, with the arguments as operands in it.
theorem render_accessor {method : Method} {value : Element} {texts : List String} {text : String}
    (hboxed : boxedValue? c = none) (haccessor : isAccessorCall c)
    (h : accessed? ctx c = some (method, value))
    (hargs : ((c.args.take (accessorSlots method c).length).mapM fun a =>
      parenthesized a <$> core.render (depth + 1) ctx a) = .ok texts)
    (hvalue : core.render depth { ctx with bindings := (accessorSlots method c).zip texts } value =
      .ok text) (stamp : Stamp) : core.render (depth + 1) ctx ⟨.call c, stamp⟩ = .ok text := by
  rw [render_call_eq (isConstructor_of_isAccessorCall haccessor), hboxed,
    inlined?_eq_some haccessor h hargs hvalue]

theorem render_call {q : Option String} {texts : List String} (hplain : isPlainCall ctx c)
    (hq : IsQualifier depth ctx c.target c.owner q)
    (hargs : c.args.mapM (core.render depth ctx) = .ok texts) (stamp : Stamp) :
    core.render depth ctx ⟨.call c, stamp⟩ = .ok (qualified q c.name ++ argumentList texts) := by
  simp only [isPlainCall, Bool.and_eq_true, Option.isNone_iff_eq_none, Bool.not_eq_true',
    Bool.and_eq_false_imp] at hplain
  obtain ⟨⟨hboxed, haccessed⟩, hconstructor⟩ := hplain
  have hinlined : inlined? depth ctx c = none := by
    rw [inlined?]
    split
    · next haccessor =>
      have hnone := haccessed (Bool.and_eq_true_iff.1 haccessor).1
      rw [Option.not_isSome_iff_eq_none.1 (Bool.eq_false_iff.1 hnone), Option.bind_none]
    · rfl
  rw [render_call_eq hconstructor, hboxed, hinlined, hargs, writtenQualifier_of_isQualifier hq]
  rfl

end Calls

section Lambdas

variable {l : Lambda Element}

theorem render_reference (hbacking : "lambda$".isPrefixOf l.backing = false)
    {receiver : Option String}
    (hreceiver : (match l.receiver with
      | none => receiver = none
      | some r => ∃ text, core.render depth ctx r = .ok text ∧
          receiver = some (parenthesized r text)))
    (stamp : Stamp) : core.render depth ctx ⟨.lambda l, stamp⟩ =
      .ok (referenceText ctx l receiver) := by
  obtain ⟨receiver?, kind, interface, method, interfaceSignature, declaring, backing,
    backingSignature, enclosed⟩ := l
  rw [render_plain (by nofun), plain.eq_def]
  simp only [hbacking, Bool.false_eq_true, if_false]
  cases receiver? with
  | none =>
    obtain rfl := hreceiver
    rfl
  | some r =>
    obtain ⟨text, htext, rfl⟩ := hreceiver
    simp only [Rest.childOperand, Rest.operand, coreRest, htext]
    rfl

theorem render_lambdaText (hbacking : "lambda$".isPrefixOf l.backing) (depth : Nat)
    (ctx : Context) (stamp : Stamp) : core.render depth ctx ⟨.lambda l, stamp⟩ =
      lambdaText (coreRest depth ⟨.lambda l, stamp⟩) ctx l := by
  rw [render_plain (by nofun), plain.eq_def]
  exact if_pos hbacking

theorem render_lambda {method : Method} {body : List Element}
    (hbacking : "lambda$".isPrefixOf l.backing)
    (hmethod : ctx.method? l.declaring l.backing l.backingSignature.descriptor = some method)
    (hbody : method.decompile = .ok body) (depth : Nat) (stamp : Stamp) :
    let head := argumentList ((method.parameters.drop l.enclosed.length).map (·.name)) ++ " ->"
    (bodyStatements body = [] →
      core.render depth ctx ⟨.lambda l, stamp⟩ = .ok (head ++ " \x7b\x7d")) ∧
    ∀ value text, bodyValue? body = some value → core.within depth ctx value = .ok text →
      core.render depth ctx ⟨.lambda l, stamp⟩ = .ok (head ++ " " ++ text) := by
  intro head
  rw [render_lambdaText hbacking, lambdaText]
  simp only [hmethod, hbody]
  constructor
  · intro hempty
    rw [hempty]
    rfl
  · intro value text hvalue htext
    rw [bodyValue?] at hvalue
    split at hvalue
    · next heq =>
      cases hvalue
      simp only [heq, coreRest, htext]
      rfl
    · next statement hreturn heq =>
      split at hvalue
      · next hexpression =>
        cases hvalue
        simp only [heq, coreRest, hexpression, if_true, htext]
        rfl
      · cases hvalue
    · cases hvalue

theorem exists_append_of_written {α : Type} {written : Except RenderError α} {head text : String}
    {write : α → String} (hwrite : ∀ a, ∃ body, write a = head ++ body)
    (h : (do return write (← written)) = Except.ok text) : ∃ body, text = head ++ body := by
  cases written with
  | error e => cases h
  | ok a =>
    cases h
    exact hwrite a

theorem exists_block_eq (ctx : Context) (head : String) (statements : List String) :
    ∃ body, block ctx head statements = head ++ body := by
  simp only [block, String.append_assoc]
  exact ⟨_, rfl⟩

-- Whatever the body, the parameters that are not enclosed stand in front of it.
theorem exists_of_render_lambda {method : Method} {stamp : Stamp} {text : String}
    (hbacking : "lambda$".isPrefixOf l.backing)
    (hmethod : ctx.method? l.declaring l.backing l.backingSignature.descriptor = some method)
    (h : core.render depth ctx ⟨.lambda l, stamp⟩ = .ok text) :
    ∃ body, text =
      argumentList ((method.parameters.drop l.enclosed.length).map (·.name)) ++ " ->" ++ body := by
  have hvalue (head value : String) : ∃ body, head ++ " " ++ value = head ++ body :=
    ⟨" " ++ value, String.append_assoc ..⟩
  rw [render_lambdaText hbacking, lambdaText] at h
  simp only [hmethod] at h
  split at h
  · cases h
  · split at h
    · cases h
      exact ⟨_, rfl⟩
    · exact exists_append_of_written (hvalue _) h
    · split at h
      · exact exists_append_of_written (hvalue _) h
      · exact exists_append_of_written (fun a => exists_block_eq ctx _ [a]) h
    · exact exists_append_of_written (exists_block_eq ctx _) h

end Lambdas

end Registry

end JvmLift.Render
