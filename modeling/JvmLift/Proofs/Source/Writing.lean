import JvmLift.Proofs.Source.Phrases
import JvmLift.Proofs.Written.Core

namespace JvmLift

open Source Decimal

namespace Element

-- Whether something that binds to the element has it in parentheses.
def isEnclosed (e : Element) : Bool :=
  match e.shape with
  | .binary .. | .cast .. | .instanceOf .. | .lambda .. => true
  | _ => false

-- An element as an operand that something binds to.
def enclosed (e : Element) (a : Phrase) : Phrase :=
  if e.isEnclosed then a.group else a

-- An element as an operand of a binary operator.
def atLevel (level : Nat) (e : Element) (a : Phrase) : Phrase :=
  if e.stands level then a else a.group

end Element

def UnaryOp.head : UnaryOp → Head
  | neg => .negate
  | not => .not

namespace Render

open Element

-- What the values that no number is written for are called.
def limitName? : Binary → Option String
  | .nan => some "NaN"
  | .infinite negative => some (if negative then "NEGATIVE_INFINITY" else "POSITIVE_INFINITY")
  | .finite .. => none

def limit? (wrapper : String) (value : Binary) : Option Phrase :=
  (limitName? value).map (.member (some (.leaf (.name wrapper))))

-- Constants without a point in their numbers. Those of a class need its name.
def constantPhrase? : Constant → Option Phrase
  | .null => some (.leaf (.word .null))
  | .int value => some (signed .number value.toInt)
  | .long value => some (signed .long value.toInt)
  | .boolean value => some (.leaf (.word (if value then .true else .false)))
  | .string text => some (.leaf (.string text))
  | .float value => limit? "Float" value.value
  | .double value => limit? "Double" value.value
  | .classOf _ => none

-- What stands in front of a member: a target unless it goes without saying, or else a class unless
-- that does.
def Qualifies (ctx : Context) (target : Option Element) (owner : JvmType)
    (written : Option Element) (c? : Option ClassName) : Prop :=
  match target with
  | some t => c? = none ∧ written = if isThis t && ctx.style.omitThis then none else some t
  | none => written = none ∧
      if ctx.isCurrent owner then c? = none
      else ∃ c : ClassName, c? = some c ∧ c.isSpelled ∧ c.text = ctx.typeName owner

def qualifier (target : Option (Element × Phrase)) (c? : Option ClassName) : Option Phrase :=
  match target with
  | some (e, a) => some (e.enclosed a)
  | none => c?.map ClassName.phrase

-- How the core rules write an element as an expression, with groups where they put parentheses, to
-- a depth of method bodies and with expressions in the places of the variables in some slots. Calls
-- that are not written as calls are among the elements or not.
inductive Writes (ctx : Context) (inlining : Bool) :
    Nat → List (UInt16 × Phrase) → Element → Phrase → Prop
  | constant {depth env value a} (ty : JvmType) (stamp : Stamp)
    (h : constantPhrase? value = some a) :
    Writes ctx inlining depth env ⟨.constant value ty, stamp⟩ a
  | classOf {depth env of} {t : TypeName} (ty : JvmType) (stamp : Stamp) (hs : t.isSpelled)
    (ht : t.text = ctx.typeName of) :
    Writes ctx inlining depth env ⟨.constant (.classOf of) ty, stamp⟩ t.literal
  | localVar {depth env} (v : LocalRef) (stamp : Stamp) (hfree : env.lookup v.slot = none)
    (hname : isName v.name) :
    Writes ctx inlining depth env ⟨.localVar v, stamp⟩ (.leaf (.name v.name))
  | this {depth env} (v : LocalRef) (stamp : Stamp) (hfree : env.lookup v.slot = none)
    (hname : v.name = "this") :
    Writes ctx inlining depth env ⟨.localVar v, stamp⟩ (.leaf (.word .this))
  | bound {depth env a} (v : LocalRef) (stamp : Stamp) (h : env.lookup v.slot = some a) :
    Writes ctx inlining depth env ⟨.localVar v, stamp⟩ a
  | field {depth env} {f : FieldAccess Element} {target : Option (Element × Phrase)}
    {c? : Option ClassName} (stamp : Stamp) (hname : isName f.name)
    (hq : Qualifies ctx f.target f.owner (target.map (·.1)) c?)
    (h : ∀ p ∈ target, Writes ctx inlining depth env p.1 p.2) :
    Writes ctx inlining depth env ⟨.field f, stamp⟩ (.member (qualifier target c?) f.name)
  | arrayLoad {depth env array index a b} (ty : JvmType) (stamp : Stamp)
    (ha : Writes ctx inlining depth env array a) (hb : Writes ctx inlining depth env index b) :
    Writes ctx inlining depth env ⟨.arrayLoad array index ty, stamp⟩
      (.link (array.enclosed a) .index b)
  | binary {depth env left right a b} (op : BinaryOp) (ty : JvmType) (stamp : Stamp)
    (ha : Writes ctx inlining depth env left a) (hb : Writes ctx inlining depth env right b) :
    Writes ctx inlining depth env ⟨.binary left op right ty, stamp⟩
      (.link (left.atLevel (Grammar.binding op) a) (.operator op)
        (right.atLevel (Grammar.binding op + 1) b))
  | unary {depth env operand a} (op : UnaryOp) (ty : JvmType) (stamp : Stamp)
    (h : Writes ctx inlining depth env operand a) :
    Writes ctx inlining depth env ⟨.unary operand op ty, stamp⟩
      (.head op.head (operand.enclosed a))
  | compare {depth env left right a b} (stamp : Stamp)
    (ha : Writes ctx inlining depth env left a) (hb : Writes ctx inlining depth env right b) :
    Writes ctx inlining depth env ⟨.compare left right, stamp⟩
      (.call (some (.leaf (.name (comparisonClass left.ty)))) "compare" [a, b])
  | cast {depth env value ty a} {t : TypeName} (stamp : Stamp) (hs : t.isSpelled)
    (ht : t.text = ctx.typeName ty) (h : Writes ctx inlining depth env value a) :
    Writes ctx inlining depth env ⟨.cast value ty, stamp⟩ (.head (.cast t) (value.enclosed a))
  | instanceOf {depth env value ty a} {t : TypeName} (stamp : Stamp) (hs : t.isSpelled)
    (ht : t.text = ctx.typeName ty) (h : Writes ctx inlining depth env value a) :
    Writes ctx inlining depth env ⟨.instanceOf value ty, stamp⟩
      (.tail (value.enclosed a) (.instanceOf t))
  | call {depth env} {c : Call Element} {target : Option (Element × Phrase)}
    {c? : Option ClassName} {args : List (Element × Phrase)} (stamp : Stamp)
    (hplain : isPlainCall ctx c) (hname : isName c.name)
    (hq : Qualifies ctx c.target c.owner (target.map (·.1)) c?) (hargs : args.map (·.1) = c.args)
    (ht : ∀ p ∈ target, Writes ctx inlining depth env p.1 p.2)
    (ha : ∀ p ∈ args, Writes ctx inlining depth env p.1 p.2) :
    Writes ctx inlining depth env ⟨.call c, stamp⟩
      (.call (qualifier target c?) c.name (args.map (·.2)))
  | newInstance {depth env ty} {c : ClassName} {args : List (Element × Phrase)}
    {es : List Element} (signature : MethodDescriptor) (stamp : Stamp) (hs : c.isSpelled)
    (hc : c.text = ctx.typeName ty) (hargs : args.map (·.1) = es)
    (ha : ∀ p ∈ args, Writes ctx inlining depth env p.1 p.2) :
    Writes ctx inlining depth env ⟨.newInstance ty signature es, stamp⟩
      (.create c (args.map (·.2)))
  | newArray {depth env component length a} {b : Base} (ty : JvmType) (stamp : Stamp)
    (hs : b.isSpelled) (hb : b.text = ctx.typeName component.base.1)
    (h : Writes ctx inlining depth env length a) :
    Writes ctx inlining depth env ⟨.newArray ty component length [], stamp⟩
      (.allocation b a component.base.2)
  | values {depth env component initializers a} {t : TypeName} {values : List (Element × Phrase)}
    (ty : JvmType) (length : Element) (stamp : Stamp) (hs : t.isSpelled)
    (ht : t.text = ctx.typeName component)
    (hvalues : values.map (·.1) = (sortInitializers initializers).map (·.2))
    (hlist : Phrase.list? (values.map (·.2)) = some a)
    (h : ∀ p ∈ values, Writes ctx inlining depth env p.1 p.2) :
    Writes ctx inlining depth env ⟨.newArray ty component length initializers, stamp⟩
      (.head (.values t) a)
  | reference {depth env} {l : Lambda Element} {receiver : Option (Element × Phrase)}
    {c? : Option ClassName} {q : Phrase} (stamp : Stamp)
    (hbacking : "lambda$".isPrefixOf l.backing = false)
    (hname : l.kind ≠ .newInvokeSpecial → isName l.backing)
    (hreceiver : receiver.map (·.1) = l.receiver)
    (hc : ∀ c ∈ c?, c.isSpelled ∧ c.text = ctx.typeName l.declaring)
    (hq : qualifier receiver c? = some q)
    (h : ∀ p ∈ receiver, Writes ctx inlining depth env p.1 p.2) :
    Writes ctx inlining depth env ⟨.lambda l, stamp⟩
      (.tail q (if l.kind = .newInvokeSpecial then .construct else .reference l.backing))
  | block {depth env} {l : Lambda Element} {method : Method} {body : List Element} (stamp : Stamp)
    (hbacking : "lambda$".isPrefixOf l.backing)
    (hmethod : ctx.method? l.declaring l.backing l.backingSignature.descriptor = some method)
    (hbody : method.decompile = .ok body) (hempty : bodyStatements body = [])
    (hnames : ((method.parameters.drop l.enclosed.length).map (·.name)).all isName) :
    Writes ctx inlining depth env ⟨.lambda l, stamp⟩
      (.leaf (.block ((method.parameters.drop l.enclosed.length).map (·.name))))
  | lambda {depth} {l : Lambda Element} {method : Method} {body : List Element} {value : Element}
    {a : Phrase} (stamp : Stamp) (hbacking : "lambda$".isPrefixOf l.backing)
    (hmethod : ctx.method? l.declaring l.backing l.backingSignature.descriptor = some method)
    (hbody : method.decompile = .ok body) (hvalue : bodyValue? body = some value)
    (hnames : ((method.parameters.drop l.enclosed.length).map (·.name)).all isName)
    (h : Writes ctx inlining depth [] value a) :
    Writes ctx inlining (depth + 1) [] ⟨.lambda l, stamp⟩
      (.head (.lambda ((method.parameters.drop l.enclosed.length).map (·.name))) a)
  | boxed {depth env a} {c : Call Element} {value : Element} (stamp : Stamp) (hin : inlining)
    (hboxed : boxedValue? c = some value) (hname : booleanName? c value = none)
    (h : Writes ctx inlining depth env value a) :
    Writes ctx inlining depth env ⟨.call c, stamp⟩ a
  | boolean {depth env} {c : Call Element} {value : Element} {b : Bool} (stamp : Stamp)
    (hin : inlining) (hboxed : boxedValue? c = some value) (hname : booleanName? c value = some b) :
    Writes ctx inlining depth env ⟨.call c, stamp⟩ (.leaf (.word (if b then .true else .false)))
  | accessor {depth env a} {c : Call Element} {method : Method} {value : Element}
    {args : List (Element × Phrase)} (stamp : Stamp) (hin : inlining)
    (hboxed : boxedValue? c = none) (haccessor : isAccessorCall c)
    (haccessed : accessed? ctx c = some (method, value))
    (hargs : args.map (·.1) = c.args.take (Registry.accessorSlots method c).length)
    (ha : ∀ p ∈ args, Writes ctx inlining (depth + 1) env p.1 p.2)
    (h : Writes ctx inlining depth
      ((Registry.accessorSlots method c).zip (args.map fun p => p.1.enclosed p.2)) value a) :
    Writes ctx inlining (depth + 1) env ⟨.call c, stamp⟩ a

-- Where expressions stand for the variables in some slots.
def Context.bound (ctx : Context) (env : List (UInt16 × Phrase)) : Context :=
  { ctx with bindings := env.map fun p => (p.1, p.2.text) }

theorem Context.binding?_bound (ctx : Context) (env : List (UInt16 × Phrase)) (slot : UInt16) :
    (ctx.bound env).binding? slot = (env.lookup slot).map Phrase.text := by
  show (env.map fun p => (p.1, p.2.text)).lookup slot = _
  induction env with
  | nil => rfl
  | cons p env ih =>
    rw [List.map_cons, List.lookup_cons, List.lookup_cons, ih]
    cases slot == p.1 <;> rfl

theorem Context.bound_nil {ctx : Context} (h : ctx.bindings = []) : ctx.bound [] = ctx := by
  rw [bound, List.map_nil, ← h]

section Pieces

variable {ctx : Context} {depth : Nat} {env : List (UInt16 × Phrase)} {e : Element} {a : Phrase}

theorem text_enclosed (e : Element) (a : Phrase) :
    (e.enclosed a).text = parenthesized e a.text := by
  obtain ⟨shape, stamp⟩ := e
  cases shape <;> rfl

theorem isWhole_enclosed (e : Element) (h : a.isWhole) : (e.enclosed a).isWhole := by
  rw [enclosed]
  split
  · exact isWhole_group h
  · exact h

theorem text_atLevel (level : Nat) (e : Element) (a : Phrase) :
    (e.atLevel level a).text = e.grouped level a.text := by
  rw [atLevel, grouped]
  split <;> rfl

theorem isWhole_atLevel (level : Nat) (e : Element) (h : a.isWhole) :
    (e.atLevel level a).isWhole := by
  rw [atLevel]
  split
  · exact h
  · exact isWhole_group h

theorem text_limit {wrapper : String} {value : Binary} (h : limit? wrapper value = some a) :
    (value = .nan ∧ a.text = wrapper ++ ".NaN") ∨
      ∃ negative, value = .infinite negative ∧ a.text = infinityName wrapper negative := by
  cases value with
  | nan =>
    obtain rfl := Option.some.inj h
    exact .inl ⟨rfl, rfl⟩
  | infinite negative =>
    obtain rfl := Option.some.inj h
    refine .inr ⟨negative, rfl, ?_⟩
    cases negative <;> rfl
  | finite negative mantissa exponent => cases h

theorem text_constant {value : Constant} (h : constantPhrase? value = some a) (ctx : Context) :
    a.text = constantText ctx value := by
  cases value with
  | int value =>
    obtain rfl := Option.some.inj h
    have htext : (signed .number value.toInt).text = toString value.toInt ++ "" :=
      text_signed (fun _ => String.append_empty.symm) value.toInt
    rwa [String.append_empty] at htext
  | long value =>
    obtain rfl := Option.some.inj h
    exact text_signed (fun _ => rfl) value.toInt
  | boolean value =>
    obtain rfl := Option.some.inj h
    cases value <;> rfl
  | null | string text =>
    obtain rfl := Option.some.inj h
    rfl
  | float value =>
    rw [constantText]
    obtain ⟨hvalue, htext⟩ | ⟨negative, hvalue, htext⟩ := text_limit h
    · rw [hvalue, htext]
      rfl
    · rw [hvalue, htext]
  | double value =>
    rw [constantText]
    obtain ⟨hvalue, htext⟩ | ⟨negative, hvalue, htext⟩ := text_limit h
    · rw [hvalue, htext]
      rfl
    · rw [hvalue, htext]
  | classOf of => cases h

theorem isName_limitName {value : Binary} {name : String} (h : limitName? value = some name) :
    isName name := by
  cases value with
  | nan =>
    obtain rfl := Option.some.inj h
    decide
  | infinite negative =>
    obtain rfl := Option.some.inj h
    cases negative <;> decide
  | finite negative mantissa exponent => cases h

-- Constants are words, strings, numbers with signs and members of wrapper classes.
theorem constantPhrase?_cases {value : Constant} (h : constantPhrase? value = some a) :
    (∃ w, a = .leaf (.word w)) ∨ (∃ s, a = .leaf (.string s)) ∨
      (∃ n, a = signed .number n) ∨ (∃ n, a = signed .long n) ∨
      ∃ wrapper name, isName wrapper ∧ isName name ∧
        a = .member (some (.leaf (.name wrapper))) name := by
  cases value with
  | null => exact .inl ⟨_, (Option.some.inj h).symm⟩
  | boolean value => exact .inl ⟨_, (Option.some.inj h).symm⟩
  | string text => exact .inr (.inl ⟨_, (Option.some.inj h).symm⟩)
  | int value => exact .inr (.inr (.inl ⟨_, (Option.some.inj h).symm⟩))
  | long value => exact .inr (.inr (.inr (.inl ⟨_, (Option.some.inj h).symm⟩)))
  | float value =>
    obtain ⟨name, hlimit, rfl⟩ := Option.map_eq_some_iff.1 h
    exact .inr (.inr (.inr (.inr ⟨_, name, by decide, isName_limitName hlimit, rfl⟩)))
  | double value =>
    obtain ⟨name, hlimit, rfl⟩ := Option.map_eq_some_iff.1 h
    exact .inr (.inr (.inr (.inr ⟨_, name, by decide, isName_limitName hlimit, rfl⟩)))
  | classOf of => cases h

theorem isWhole_constant {value : Constant} (h : constantPhrase? value = some a) : a.isWhole := by
  obtain ⟨w, rfl⟩ | ⟨s, rfl⟩ | ⟨n, rfl⟩ | ⟨n, rfl⟩ | ⟨wrapper, name, hwrapper, hname, rfl⟩ :=
    constantPhrase?_cases h
  · exact isWhole_leaf rfl
  · exact isWhole_leaf rfl
  · exact isWhole_signed (fun _ => rfl) n
  · exact isWhole_signed (fun _ => rfl) n
  · refine isWhole_member hname fun q hq => ?_
    obtain rfl := Option.some.inj hq
    exact hwrapper

variable {t : Option Element} {owner : JvmType} {target : Option (Element × Phrase)}
  {c? : Option ClassName}

theorem Qualifies.isQualifier (hq : Qualifies ctx t owner (target.map (·.1)) c?)
    (h : ∀ p ∈ target, Registry.core.render depth (ctx.bound env) p.1 = .ok p.2.text) :
    Registry.IsQualifier depth (ctx.bound env) t owner
      ((qualifier target c?).map Phrase.text) := by
  cases t with
  | none =>
    obtain ⟨hnone, hclass⟩ := hq
    obtain rfl := Option.map_eq_none_iff.1 hnone
    show _ = if ctx.isCurrent owner then none else some (ctx.typeName owner)
    split at hclass
    · next hcurrent =>
      rw [if_pos hcurrent, hclass]
      rfl
    · next hcurrent =>
      obtain ⟨c, rfl, -, hc⟩ := hclass
      rw [if_neg hcurrent, ← hc, ← text_className]
      rfl
  | some t =>
    obtain ⟨rfl, hwritten⟩ := hq
    show if isThis t && ctx.style.omitThis then _ else _
    split at hwritten
    · next hthis =>
      obtain rfl := Option.map_eq_none_iff.1 hwritten
      rw [if_pos hthis]
      rfl
    · next hthis =>
      obtain ⟨p, rfl, rfl⟩ := Option.map_eq_some_iff.1 hwritten
      rw [if_neg hthis]
      exact ⟨_, h p rfl, congrArg some (text_enclosed p.1 p.2)⟩

theorem isSpelled_qualifier (h : ∀ p ∈ target, p.2.isWhole) (hc : ∀ c ∈ c?, c.isSpelled) :
    ∀ q ∈ qualifier target c?, q.isSpelled := by
  intro q hq
  cases target with
  | none =>
    obtain ⟨c, hc?, rfl⟩ := Option.map_eq_some_iff.1 hq
    exact isSpelled_className (hc c hc?)
  | some p =>
    obtain rfl := Option.some.inj hq
    exact isSpelled_of_isWhole (isWhole_enclosed p.1 (h p rfl))

theorem Qualifies.isSpelled (hq : Qualifies ctx t owner (target.map (·.1)) c?) :
    ∀ c ∈ c?, c.isSpelled := by
  intro c hc
  cases t with
  | none =>
    obtain ⟨-, hclass⟩ := hq
    split at hclass
    · cases hclass.symm.trans hc
    · obtain ⟨c', hc', hs, -⟩ := hclass
      obtain rfl := Option.some.inj (hc'.symm.trans hc)
      exact hs
  | some t => cases hq.1.symm.trans hc

end Pieces

section Texts

variable {ctx : Context} {inlining : Bool} {depth : Nat} {env : List (UInt16 × Phrase)}
  {e : Element} {a : Phrase}

theorem mapM_render {args : List (Element × Phrase)}
    (h : ∀ p ∈ args, Registry.core.render depth ctx p.1 = .ok p.2.text) :
    (args.map (·.1)).mapM (Registry.core.render depth ctx) =
      .ok ((args.map (·.2)).map Phrase.text) := by
  rw [List.mapM_map, List.map_map]
  exact Registry.mapM_ok h

theorem allocation_text {component : JvmType} {b : Base}
    (hb : b.text = ctx.typeName component.base.1) (length : Phrase) :
    newArrayText ctx component length.text =
      (Phrase.allocation b length component.base.2).text := by
  rw [text_allocation, hb]
  rfl

theorem referenceText_eq {l : Lambda Element} {receiver : Option (Element × Phrase)}
    {c? : Option ClassName} {q : Phrase} (hq : qualifier receiver c? = some q)
    (hc : ∀ c ∈ c?, c.text = ctx.typeName l.declaring) :
    referenceText ctx l (receiver.map fun p => parenthesized p.1 p.2.text) =
      (Phrase.tail q (if l.kind = .newInvokeSpecial then .construct else .reference l.backing)).text
      := by
  have hfirst : (receiver.map fun p => parenthesized p.1 p.2.text).getD (ctx.typeName l.declaring) =
      q.text := by
    cases receiver with
    | none =>
      obtain ⟨c, hc?, rfl⟩ := Option.map_eq_some_iff.1 hq
      rw [text_className, hc c hc?]
      rfl
    | some p =>
      obtain rfl := Option.some.inj hq
      exact (text_enclosed p.1 p.2).symm
  rw [referenceText, hfirst, Phrase.text, String.append_assoc]
  congr 1
  split <;> rfl

-- The arguments of an accessor as operands.
theorem mapM_operands {args : List (Element × Phrase)}
    (h : ∀ p ∈ args, Registry.core.render depth ctx p.1 = .ok p.2.text) :
    ((args.map (·.1)).mapM fun e => parenthesized e <$> Registry.core.render depth ctx e) =
      .ok (args.map fun p => (p.1.enclosed p.2).text) := by
  rw [List.mapM_map]
  refine Registry.mapM_ok fun p hp => ?_
  rw [Function.comp_apply, h p hp, text_enclosed]
  rfl

theorem bound_zip (ctx : Context) (env : List (UInt16 × Phrase)) (slots : List UInt16)
    (args : List (Element × Phrase)) :
    { ctx.bound env with bindings := slots.zip (args.map fun p => (p.1.enclosed p.2).text) } =
      ctx.bound (slots.zip (args.map fun p => p.1.enclosed p.2)) := by
  have hzip : slots.zip (args.map fun p => (p.1.enclosed p.2).text) =
      (slots.zip (args.map fun p => p.1.enclosed p.2)).map fun p => (p.1, p.2.text) := by
    have hmap : (args.map fun p => (p.1.enclosed p.2).text) =
        (args.map fun p => p.1.enclosed p.2).map Phrase.text := by
      rw [List.map_map]
      rfl
    rw [hmap, List.zip_map_right]
    rfl
  rw [hzip]
  rfl

-- The core rules write the text of the phrase.
theorem Writes.render_eq (h : Writes ctx inlining depth env e a) :
    Registry.core.render depth (ctx.bound env) e = .ok a.text := by
  induction h with
  | constant ty stamp h =>
    rw [Registry.render_constant, text_constant h]
  | classOf ty stamp hs ht =>
    rw [Registry.render_constant, text_literal, ht]
    rfl
  | localVar v stamp hfree hname =>
    rw [Registry.render_localVar, Context.binding?_bound, hfree]
    rfl
  | this v stamp hfree hname =>
    rw [Registry.render_localVar, Context.binding?_bound, hfree, hname]
    rfl
  | bound v stamp h =>
    rw [Registry.render_localVar, Context.binding?_bound, h]
    rfl
  | field stamp hname hq h ih =>
    rw [Registry.render_field (hq.isQualifier ih), text_member]
  | arrayLoad ty stamp ha hb iha ihb =>
    rw [Registry.render_arrayLoad iha ihb, ← text_enclosed]
    rfl
  | binary op ty stamp ha hb iha ihb =>
    rw [Registry.render_binary iha ihb, leftOperand_eq_grouped, rightOperand_eq_grouped,
      ← text_atLevel, ← text_atLevel]
    simp [Phrase.text, Link.between, Link.after, String.append_assoc]
  | unary op ty stamp h ih =>
    rw [Registry.render_unary ih, ← text_enclosed]
    cases op <;> simp [Phrase.text, UnaryOp.head, Head.before, Head.after, UnaryOp.token]
  | compare stamp ha hb iha ihb =>
    rw [Registry.render_compare iha ihb, text_call]
    simp [qualified, Phrase.text, Leaf.text, String.append_assoc]
  | cast stamp hs ht h ih =>
    rw [Registry.render_cast ih, ← text_enclosed]
    simp [Phrase.text, Head.before, Head.after, ht, Context.bound, Context.typeName]
  | instanceOf stamp hs ht h ih =>
    rw [Registry.render_instanceOf ih, ← text_enclosed]
    simp [Phrase.text, Tail.text, ht, Context.bound, Context.typeName, String.append_assoc]
  | @call depth env c target c? args stamp hplain hname hq hargs ht ha iht iha =>
    have hplain : isPlainCall (ctx.bound env) c := hplain
    rw [Registry.render_call hplain (hq.isQualifier iht) (hargs ▸ mapM_render iha), text_call]
  | newInstance signature stamp hs hc hargs ha iha =>
    rw [Registry.render_newInstance (hargs ▸ mapM_render iha), text_create, hc]
    rfl
  | newArray ty stamp hs hb h ih =>
    rw [Registry.render_allocation ih, ← allocation_text]
    exact hb
  | @values depth env component initializers a t values ty length stamp hs ht hvalues hlist h ih =>
    have hne : initializers ≠ [] := by
      rintro rfl
      obtain rfl := List.map_eq_nil_iff.1 hvalues
      cases hlist
    rw [Registry.render_newArray hne, ← hvalues, mapM_render ih, Phrase.text, text_list? hlist,
      Head.before, Head.after, ht]
    rfl
  | @reference depth env l receiver c? q stamp hbacking hname hreceiver hc hq h ih =>
    rw [← referenceText_eq hq fun c hc? => (hc c hc?).2]
    refine Registry.render_reference hbacking ?_ stamp
    rw [← hreceiver]
    cases receiver with
    | none => rfl
    | some p => exact ⟨p.2.text, ih p rfl, rfl⟩
  | @block depth env l method body stamp hbacking hmethod hbody hempty hnames =>
    have hmethod : (ctx.bound env).method? l.declaring l.backing l.backingSignature.descriptor =
        some method := hmethod
    rw [(Registry.render_lambda hbacking hmethod hbody depth stamp).1 hempty]
    simp [Phrase.text, Leaf.text, parameterText, argumentList, String.append_assoc]
  | @lambda depth l method body value a stamp hbacking hmethod hbody hvalue hnames h ih =>
    have hmethod : (ctx.bound []).method? l.declaring l.backing l.backingSignature.descriptor =
        some method := hmethod
    rw [(Registry.render_lambda hbacking hmethod hbody (depth + 1) stamp).2 _ _ hvalue ih]
    simp [Phrase.text, Head.before, Head.after, parameterText, argumentList, String.append_assoc]
  | boxed stamp hin hboxed hname h ih =>
    rw [Registry.render_boxed hboxed, hname]
    exact ih
  | @boolean _ _ _ _ b stamp hin hboxed hname =>
    rw [Registry.render_boxed hboxed, hname]
    cases b <;> rfl
  | @accessor depth env a c method value args stamp hin hboxed haccessor haccessed hargs ha h iha
      ih =>
    have haccessed : accessed? (ctx.bound env) c = some (method, value) := haccessed
    have hoperands := mapM_operands iha
    rw [hargs] at hoperands
    refine Registry.render_accessor hboxed haccessor haccessed hoperands ?_ stamp
    rw [bound_zip]
    exact ih

theorem Writes.element_eq (hb : ctx.bindings = []) (h : Writes ctx inlining ctx.depth [] e a) :
    Registry.core.element ctx e = .ok a.text := by
  have heq := h.render_eq
  rwa [Context.bound_nil hb] at heq

end Texts

section Spelling

variable {ctx : Context} {inlining : Bool} {depth : Nat} {env : List (UInt16 × Phrase)}
  {e : Element} {a : Phrase}

theorem forall_isSpelled {args : List (Element × Phrase)} (h : ∀ p ∈ args, p.2.isWhole) :
    ∀ a ∈ args.map (·.2), a.isSpelled := by
  intro a ha
  obtain ⟨p, hp, rfl⟩ := List.mem_map.1 ha
  exact isSpelled_of_isWhole (h p hp)

theorem isName_comparisonClass (ty : JvmType) : isName (comparisonClass ty) := by
  unfold comparisonClass
  split <;> decide

-- All that is written are expressions, provided that such stand for variables.
theorem Writes.isWhole (h : Writes ctx inlining depth env e a)
    (henv : ∀ p ∈ env, p.2.isWhole) : a.isWhole := by
  induction h with
  | constant ty stamp h => exact isWhole_constant h
  | classOf ty stamp hs ht => exact isWhole_literal hs
  | localVar v stamp hfree hname => exact isWhole_leaf hname
  | this v stamp hfree hname => rfl
  | bound v stamp h =>
    obtain ⟨before, after, rfl, -⟩ := List.lookup_eq_some_iff.1 h
    exact henv _ (List.mem_append_right _ List.mem_cons_self)
  | field stamp hname hq h ih =>
    exact isWhole_member hname (isSpelled_qualifier (fun p hp => ih p hp henv) hq.isSpelled)
  | arrayLoad ty stamp ha hb iha ihb =>
    exact isWhole_link nofun (isSpelled_of_isWhole (isWhole_enclosed _ (iha henv))) rfl
      (isSpelled_of_isWhole (ihb henv))
  | binary op ty stamp ha hb iha ihb =>
    exact isWhole_link nofun (isSpelled_of_isWhole (isWhole_atLevel _ _ (iha henv))) rfl
      (isSpelled_of_isWhole (isWhole_atLevel _ _ (ihb henv)))
  | unary op ty stamp h ih =>
    exact isWhole_head (by cases op <;> rfl) (isSpelled_of_isWhole (isWhole_enclosed _ (ih henv)))
  | @compare depth env left right a b stamp ha hb iha ihb =>
    refine isWhole_call (by decide) (fun q hq => ?_) fun c hc => ?_
    · obtain rfl := Option.some.inj hq
      exact isName_comparisonClass left.ty
    · obtain rfl | rfl : c = a ∨ c = b := by simpa using hc
      · exact isSpelled_of_isWhole (iha henv)
      · exact isSpelled_of_isWhole (ihb henv)
  | cast stamp hs ht h ih =>
    exact isWhole_head hs (isSpelled_of_isWhole (isWhole_enclosed _ (ih henv)))
  | instanceOf stamp hs ht h ih =>
    exact isWhole_tail (isSpelled_of_isWhole (isWhole_enclosed _ (ih henv))) hs
  | call stamp hplain hname hq hargs ht ha iht iha =>
    exact isWhole_call hname (isSpelled_qualifier (fun p hp => iht p hp henv) hq.isSpelled)
      (forall_isSpelled fun p hp => iha p hp henv)
  | newInstance signature stamp hs hc hargs ha iha =>
    exact isWhole_create hs (forall_isSpelled fun p hp => iha p hp henv)
  | newArray ty stamp hs hb h ih => exact isWhole_allocation hs (isSpelled_of_isWhole (ih henv)) _
  | values ty length stamp hs ht hvalues hlist h ih =>
    exact isWhole_head hs (isSpelled_list? hlist (forall_isSpelled fun p hp => ih p hp henv))
  | @reference depth env l receiver c? q stamp hbacking hname hreceiver hc hq h ih =>
    have hq := isSpelled_qualifier (fun p hp => ih p hp henv) (fun c hc? => (hc c hc?).1) q hq
    refine isWhole_tail hq ?_
    split
    · rfl
    · next hkind => exact hname hkind
  | block stamp hbacking hmethod hbody hempty hnames => exact isWhole_leaf hnames
  | lambda stamp hbacking hmethod hbody hvalue hnames h ih =>
    exact isWhole_head hnames (isSpelled_of_isWhole (ih fun _ h => nomatch h))
  | boxed stamp hin hboxed hname h ih => exact ih henv
  | @boolean _ _ _ _ b stamp hin hboxed hname => cases b <;> rfl
  | accessor stamp hin hboxed haccessor haccessed hargs ha h iha ih =>
    refine ih fun p hp => ?_
    obtain ⟨q, hq, heq⟩ := List.mem_map.1 (List.of_mem_zip hp).2
    rw [← heq]
    exact isWhole_enclosed q.1 (iha q hq henv)

end Spelling

end Render

end JvmLift
