import JvmLift.Proofs.Inlining
import JvmLift.Proofs.Parameters
import JvmLift.Proofs.Written.Core

namespace JvmLift

-- The layer with another name for a variable that it reads.
def Shape.renamed {ε : Type} (name : LocalRef → String) : Shape ε → Shape ε
  | .localVar v => .localVar { v with name := name v }
  | shape => shape

namespace Element

-- The tree with other names for the variables that it reads.
def renamed (name : LocalRef → String) (e : Element) : Element :=
  e.fold fun shape stamp => ⟨shape.renamed name, stamp⟩

-- Expressions of some variables: constants, fields, elements of arrays, binary operators and calls of
-- methods that are no constructors.
inductive BuiltFrom (isRead : LocalRef → Prop) : Element → Prop where
  | localVar {v : LocalRef} (stamp : Stamp) (h : isRead v) : BuiltFrom isRead ⟨.localVar v, stamp⟩
  | constant (value : Constant) (ty : JvmType) (stamp : Stamp) :
    BuiltFrom isRead ⟨.constant value ty, stamp⟩
  | field {f : FieldAccess Element} (stamp : Stamp)
      (h : ∀ target ∈ f.target.toList, BuiltFrom isRead target) :
    BuiltFrom isRead ⟨.field f, stamp⟩
  | arrayLoad {array index : Element} (ty : JvmType) (stamp : Stamp)
      (ha : BuiltFrom isRead array) (hi : BuiltFrom isRead index) :
    BuiltFrom isRead ⟨.arrayLoad array index ty, stamp⟩
  | binary {left right : Element} (op : BinaryOp) (ty : JvmType) (stamp : Stamp)
      (hl : BuiltFrom isRead left) (hr : BuiltFrom isRead right) :
    BuiltFrom isRead ⟨.binary left op right ty, stamp⟩
  | call {c : Call Element} (stamp : Stamp) (hc : c.isConstructor = false)
      (h : ∀ part ∈ c.target.toList ++ c.args, BuiltFrom isRead part) :
    BuiltFrom isRead ⟨.call c, stamp⟩

variable {name : LocalRef → String}

theorem renamed_mk (shape : Shape Element) (stamp : Stamp) :
    renamed name ⟨shape, stamp⟩ = ⟨(shape.map (renamed name)).renamed name, stamp⟩ :=
  fold_mk _ _ _

@[simp]
theorem intConstant?_renamed (e : Element) : (e.renamed name).intConstant? = e.intConstant? := by
  obtain ⟨shape, stamp⟩ := e
  rw [renamed_mk]
  cases shape <;> rfl

end Element

namespace Render

open Element

variable {name : LocalRef → String}

@[simp]
theorem parenthesized_renamed (e : Element) :
    parenthesized (e.renamed name) = parenthesized e := by
  obtain ⟨shape, stamp⟩ := e
  rw [Element.renamed_mk]
  cases shape <;> rfl

@[simp]
theorem leftOperand_renamed (op : BinaryOp) (e : Element) :
    leftOperand op (e.renamed name) = leftOperand op e := by
  obtain ⟨shape, stamp⟩ := e
  rw [Element.renamed_mk]
  cases shape <;> rfl

@[simp]
theorem rightOperand_renamed (op : BinaryOp) (e : Element) :
    rightOperand op (e.renamed name) = rightOperand op e := by
  obtain ⟨shape, stamp⟩ := e
  rw [Element.renamed_mk]
  cases shape <;> rfl

-- The place where no texts stand for variables.
def Context.unbound (ctx : Context) : Context :=
  { ctx with bindings := [] }

namespace Registry

variable {depth : Nat} {ctx : Context}

section Renaming

variable {isRead : LocalRef → Prop}

-- The call with other names for the variables that its parts read.
def renamedCall (name : LocalRef → String) (c : Call Element) : Call Element :=
  { c with target := c.target.map (Element.renamed name), args := c.args.map (Element.renamed name) }

theorem renamed_call (c : Call Element) (stamp : Stamp) :
    Element.renamed name ⟨.call c, stamp⟩ = ⟨.call (renamedCall name c), stamp⟩ :=
  Element.renamed_mk _ _

theorem boxedValue?_renamedCall (c : Call Element) :
    boxedValue? (renamedCall name c) = (boxedValue? c).map (Element.renamed name) := by
  obtain ⟨owner, method, signature, target, args, ty⟩ := c
  simp only [boxedValue?, renamedCall, Option.bind_eq_bind, Option.map_bind, Function.comp_def]
  refine congrArg _ (funext fun className => congrArg _ (funext fun primitive => ?_))
  rcases target with _ | target <;> rcases args with _ | ⟨arg, _ | ⟨second, rest⟩⟩
  · rfl
  · dsimp only [Option.map_none, List.map_cons, List.map_nil]
    rw [apply_ite (Option.map (Element.renamed name))]
    rfl
  · rfl
  · dsimp only [Option.map_some, List.map_nil]
    rw [apply_ite (Option.map (Element.renamed name))]
    rfl
  · rfl
  · rfl

theorem booleanName?_renamedCall (c : Call Element) (value : Element) :
    booleanName? (renamedCall name c) (value.renamed name) = booleanName? c value := by
  rw [booleanName?, booleanName?, Element.intConstant?_renamed]
  rfl

-- An element is written where texts stand for variables like the one with other names where none do.
def Agrees (depth : Nat) (ctx : Context) (name : LocalRef → String) (e : Element) : Prop :=
  core.render depth ctx e = core.render depth ctx.unbound (e.renamed name)

theorem writtenQualifier_renamed (homit : ctx.style.omitThis = false) {target : Option Element}
    (h : ∀ t ∈ target, Agrees depth ctx name t) (owner : JvmType) :
    writtenQualifier depth ctx target owner =
      writtenQualifier depth ctx.unbound (target.map (Element.renamed name)) owner := by
  cases target with
  | none => rfl
  | some t =>
    have homit' : ctx.unbound.style.omitThis = false := homit
    have ht : core.render depth ctx t = _ := h t rfl
    simp only [writtenQualifier, Option.map_some, homit, homit', Bool.and_false,
      Bool.false_eq_true, if_false, ht, parenthesized_renamed]

theorem mapM_renamed {args : List Element} (h : ∀ a ∈ args, Agrees depth ctx name a) :
    (args.map (Element.renamed name)).mapM (core.render depth ctx.unbound) =
      args.mapM (core.render depth ctx) := by
  rw [List.mapM_map]
  exact mapM_congr fun a ha => (h a ha).symm

-- An accessor that is called gets its arguments as texts, whatever they were written from.
theorem inlined?_renamedCall {c : Call Element} (h : ∀ a ∈ c.args, Agrees depth ctx name a) :
    inlined? depth ctx.unbound (renamedCall name c) = inlined? depth ctx c := by
  have hoperands (count : Nat) : ((renamedCall name c).args.take count).mapM (fun a =>
      parenthesized a <$> core.render depth ctx.unbound a) =
      (c.args.take count).mapM fun a => parenthesized a <$> core.render depth ctx a := by
    rw [renamedCall, ← List.map_take, List.mapM_map]
    refine mapM_congr fun a ha => ?_
    have hsame : core.render depth ctx a = _ := h a (List.mem_of_mem_take ha)
    rw [Function.comp_apply, parenthesized_renamed, hsame]
  have hslots (method : Method) : accessorSlots method (renamedCall name c) =
    accessorSlots method c := rfl
  have haccessed : accessed? ctx.unbound (renamedCall name c) = accessed? ctx c := rfl
  have haccessor : isAccessorCall (renamedCall name c) = isAccessorCall c := by
    rw [isAccessorCall, isAccessorCall, renamedCall, Option.isNone_map]
  have hresolver : ctx.unbound.resolver = ctx.resolver := rfl
  simp only [inlined?, haccessor, hresolver, haccessed, hslots, hoperands]
  rfl

-- Texts that stand for variables are as good as names. The induction is on how the expression is
-- built, at one depth: what other methods return is written with bindings of its own.
theorem render_renamed
    (hname : ∀ v, isRead v → (ctx.binding? v.slot).getD v.name = name v)
    (homit : ctx.style.omitThis = false) {e : Element} (h : e.BuiltFrom isRead) :
    Agrees depth ctx name e := by
  have hnone (slot : UInt16) : ctx.unbound.binding? slot = none := List.lookup_nil
  induction h with
  | localVar stamp hv =>
    rw [Agrees, Element.renamed_mk]
    show _ = core.render depth ctx.unbound ⟨.localVar _, stamp⟩
    rw [render_localVar, render_localVar, hnone, hname _ hv]
    rfl
  | constant value ty stamp =>
    rw [Agrees, Element.renamed_mk]
    show _ = core.render depth ctx.unbound ⟨.constant value ty, stamp⟩
    rw [render_constant, render_constant]
    rfl
  | field stamp _ ih =>
    rw [Agrees, Element.renamed_mk]
    show _ = core.render depth ctx.unbound ⟨.field _, stamp⟩
    have htarget := fun t ht => ih t (Option.mem_toList.2 ht)
    rw [render_field_eq, render_field_eq, writtenQualifier_renamed homit htarget]
  | arrayLoad ty stamp _ _ iha ihi =>
    rw [Agrees] at iha ihi
    rw [Agrees, Element.renamed_mk]
    show _ = core.render depth ctx.unbound ⟨.arrayLoad _ _ ty, stamp⟩
    rw [render_arrayLoad_eq, render_arrayLoad_eq, iha, ihi, parenthesized_renamed]
  | binary op ty stamp _ _ ihl ihr =>
    rw [Agrees] at ihl ihr
    rw [Agrees, Element.renamed_mk]
    show _ = core.render depth ctx.unbound ⟨.binary _ op _ ty, stamp⟩
    rw [render_binary_eq, render_binary_eq, ihl, ihr, leftOperand_renamed, rightOperand_renamed]
  | @call c stamp hc _ ih =>
    rw [Agrees, renamed_call, render_call_eq hc, render_call_eq (c := renamedCall name c) hc,
      boxedValue?_renamedCall]
    cases hboxed : boxedValue? c with
    | some value =>
      have hmem : value ∈ (Element.mk (.call c) stamp).children := boxedValue_mem hboxed
      have hvalue : Agrees depth ctx name value := ih value hmem
      rw [Agrees] at hvalue
      simp only [Option.map_some, booleanName?_renamedCall, hvalue]
    | none =>
      have hargs : ∀ a ∈ c.args, Agrees depth ctx name a :=
        fun a ha => ih a (List.mem_append_right _ ha)
      have htarget : ∀ t ∈ c.target, Agrees depth ctx name t :=
        fun t ht => ih t (List.mem_append_left _ (Option.mem_toList.2 ht))
      simp only [Option.map_none, inlined?_renamedCall hargs]
      rw [writtenQualifier_renamed homit htarget, renamedCall, mapM_renamed hargs]

end Renaming

section Arguments

variable {types : List JvmType} {texts : List String} {slot : UInt16}

-- Whether a variable is read from the slot of a parameter of a static method.
abbrev IsParameter (types : List JvmType) (v : LocalRef) : Prop :=
  v.slot.toNat ∈ slotsFrom 0 types

-- The text that is passed for the parameter in a slot.
def argumentAt? (types : List JvmType) (texts : List String) (slot : UInt16) : Option String :=
  ((slotsFrom 0 types).idxOf? slot.toNat).bind (texts[·]?)

-- A parameter is bound to the text at its position.
theorem lookup_zip_parameterSlots {first : Nat} (h : slot.toNat ∈ slotsFrom first types) :
    ((parameterSlots first types).zip texts).lookup slot =
      ((slotsFrom first types).idxOf? slot.toNat).bind (texts[·]?) := by
  induction types generalizing first texts with
  | nil => cases h
  | cons ty rest ih =>
    rw [parameterSlots, slotsFrom, List.idxOf?_cons]
    cases texts with
    | nil => simp
    | cons text texts =>
      rw [List.zip_cons_cons, List.lookup_cons]
      by_cases hfirst : slot.toNat = first
      · have hslot : slot = .ofNat first := by rw [← hfirst, UInt16.ofNat_toNat]
        rw [beq_iff_eq.2 hslot, beq_iff_eq.2 hfirst.symm]
        rfl
      · -- slots go up, so that no earlier one can wrap around to this one
        have hrest : slot.toNat ∈ slotsFrom (first + ty.category) rest :=
          (List.mem_cons.1 h).resolve_left hfirst
        have hslot : slot ≠ .ofNat first := by
          intro heq
          have hle := le_of_mem_slotsFrom hrest
          have hlt : slot.toNat < 65536 := slot.toNat_lt
          have hofNat : slot.toNat = first % 65536 := by rw [heq, UInt16.toNat_ofNat']
          omega
        rw [beq_eq_false_iff_ne.2 hslot, beq_eq_false_iff_ne.2 (Ne.symm hfirst), ih hrest]
        simp only [Bool.false_eq_true, if_false, Option.bind_map]
        rfl

theorem length_parameterSlots {first : Nat} :
    (parameterSlots first types).length = types.length := by
  induction types generalizing first with
  | nil => rfl
  | cons ty rest ih => rw [parameterSlots, List.length_cons, List.length_cons, ih]

variable {c : Call Element} {method : Method} {value : Element} {text : String}

-- What an accessor is inlined as was written with texts in the place of its parameters.
theorem exists_of_accessorText? {e : Element} {ha : ∀ a ∈ c.args, a ∈ e.children}
    (h : accessorText? (coreRest depth e) ctx c ha = some text)
    (haccessed : accessed? ctx c = some (method, value)) :
    ∃ below texts, depth = below + 1 ∧
      ((c.args.take c.signature.parameters.length).mapM fun a =>
        parenthesized a <$> core.render depth ctx a) = .ok texts ∧
      core.render below { ctx with bindings := (accessorSlots method c).zip texts } value =
        .ok text := by
  have hlength : (accessorSlots method c).length = c.signature.parameters.length :=
    length_parameterSlots
  rw [accessorText?_eq, haccessed, Option.bind_some, Option.bind_eq_some_iff] at h
  obtain ⟨texts, hargs, hvalue⟩ := h
  have hoperands : ((c.args.take (accessorSlots method c).length).mapM fun a =>
      parenthesized a <$> core.render depth ctx a) = .ok texts := by
    rw [← mapM_attach]
    exact eq_ok_of_toOption hargs
  rw [hlength] at hoperands
  cases depth with
  | zero => cases hvalue
  | succ below => exact ⟨below, texts, rfl, hoperands, eq_ok_of_toOption hvalue⟩

-- A call of an accessor is inlined as the expression that the accessor returns, with the text of an
-- argument as the name of each parameter.
theorem inlining_substitutes {stamp returned : Stamp}
    (hrule : core.rule? ⟨.call c, stamp⟩ ctx = some accessorRule)
    (hinlined : accessorText? (coreRest depth ⟨.call c, stamp⟩) ctx c (fun _ h => arg_mem_call h) =
      some text)
    (hmethod : ctx.method? c.owner c.name c.signature.descriptor = some method)
    (hbody : method.decompile = .ok [⟨.returnValue value, returned⟩])
    (hstatic : method.isStatic) (homit : ctx.style.omitThis = false)
    (hvalue : value.BuiltFrom (IsParameter c.signature.parameters)) :
    core.render depth ctx ⟨.call c, stamp⟩ = .ok text ∧
      ∃ (below : Nat) (texts : List String), depth = below + 1 ∧
        ((c.args.take c.signature.parameters.length).mapM fun a =>
          parenthesized a <$> core.render depth ctx a) = .ok texts ∧
        let substituted := value.renamed fun v =>
          (argumentAt? c.signature.parameters texts v.slot).getD v.name
        core.render below ctx.unbound substituted = .ok text ∧
          ∀ d, core.render d { ctx with bindings := (accessorSlots method c).zip texts } value =
            core.render d ctx.unbound substituted := by
  have haccessed : accessed? ctx c = some (method, value) := by
    rw [accessed?, hmethod, Option.bind_some, hbody]
  obtain ⟨below, texts, hdepth, hargs, htext⟩ := exists_of_accessorText? hinlined haccessed
  have hfirst : method.firstParameterSlot = 0 := by rw [Method.firstParameterSlot, if_pos hstatic]
  let bound : Context := { ctx with bindings := (accessorSlots method c).zip texts }
  have hbound : bound.style.omitThis = false := homit
  have hagrees (d : Nat) : Agrees d bound
      (fun v => (argumentAt? c.signature.parameters texts v.slot).getD v.name) value := by
    refine render_renamed (fun v hv => ?_) hbound hvalue
    have hlookup : bound.binding? v.slot = argumentAt? c.signature.parameters texts v.slot := by
      show ((accessorSlots method c).zip texts).lookup v.slot = _
      rw [accessorSlots, hfirst, lookup_zip_parameterSlots hv]
      rfl
    rw [hlookup]
  refine ⟨?_, below, texts, hdepth, hargs, (hagrees below).symm.trans htext, hagrees⟩
  rw [render_of_rule hrule]
  show accessor ⟨.call c, stamp⟩ ctx (coreRest depth ⟨.call c, stamp⟩) = _
  rw [accessor, hinlined]
  rfl

end Arguments

section Examples

-- Adds an element of a private array to its index, by the accessor of another method. A long that is
-- not used comes first.
def picking : Method :=
  { className := "A", name := "access$100", descriptor := "(J[II)I"
    signature := ⟨[.long, .array .int, .int], .int⟩, flags := 0x1008
    code := [Opcode.aload, 2, Opcode.iload, 3, Opcode.iaload, Opcode.iload, 3,
      Opcode.invokestatic, 0, 6, Opcode.ireturn]
    locals := [⟨"w", .long, 0, 0, 11⟩, ⟨"a", .array .int, 2, 0, 11⟩, ⟨"i", .int, 3, 0, 11⟩]
    pool := ⟨#[.utf8 "A", .classRef 1, .utf8 "access$000", .utf8 "(II)I", .nameAndType 3 4,
      .methodRef 2 5]⟩ }

def pickingContext : Context :=
  { resolver := some ⟨[{
      name := "A", superName := none, sourceFile := none, flags := 0, pool := .empty
      bootstrapMethods := [], methods := [addition, picking] }]⟩ }

def pickingCall (width array index : Element) : Call Element :=
  { owner := .reference "A", name := "access$100", signature := ⟨[.long, .array .int, .int], .int⟩
    target := none, args := [width, array, index], ty := .int }

-- What the accessor returns.
def pickingValue : Element :=
  ⟨.call (additionCall
    ⟨.arrayLoad ⟨.localVar ⟨"a", .array .int, 2⟩, { pc := some 0 }⟩
      ⟨.localVar ⟨"i", .int, 3⟩, { pc := some 2 }⟩ .int, { pc := some 4 }⟩
    ⟨.localVar ⟨"i", .int, 3⟩, { pc := some 5 }⟩), { pc := some 7 }⟩

-- Whether that is all that a body does.
def returnsPicked : List Element → Bool
  | [⟨.returnValue ⟨.call ⟨owner, name, signature, none,
      [⟨.arrayLoad ⟨.localVar a, p⟩ ⟨.localVar i, q⟩ element, r⟩, ⟨.localVar j, u⟩], ty⟩, v⟩, w⟩] =>
    [a, i, j] = [⟨"a", .array .int, 2⟩, ⟨"i", .int, 3⟩, ⟨"i", .int, 3⟩] &&
      [p, q, r, u, v, w] = [0, 2, 4, 5, 7, 10].map (fun pc => { pc := some pc }) &&
      [owner, element, ty] = [.reference "A", .int, .int] && name = "access$000" &&
      signature = ⟨[.int, .int], .int⟩
  | _ => false

theorem eq_of_returnsPicked {body : List Element} (h : returnsPicked body) :
    body = [⟨.returnValue pickingValue, { pc := some 10 }⟩] := by
  unfold returnsPicked at h
  split at h
  · simp only [Bool.and_eq_true, decide_eq_true_eq, List.map_cons, List.map_nil, List.cons.injEq,
      and_true] at h
    obtain ⟨⟨⟨⟨⟨rfl, rfl, rfl⟩, rfl, rfl, rfl, rfl, rfl, rfl⟩, rfl, rfl, rfl⟩, rfl⟩, rfl⟩ := h
    rfl
  · cases h

theorem decompile_picking :
    picking.decompile = .ok [⟨.returnValue pickingValue, { pc := some 10 }⟩] := by
  have hsome : picking.decompile.toOption.map returnsPicked = some true := by decide +kernel
  obtain ⟨body, hbody, hpicked⟩ := exists_eq_ok_of_toOption hsome
  rw [hbody, eq_of_returnsPicked hpicked]

section Picking

variable {ctx : Context} (hctx : ctx.resolver = pickingContext.resolver)

include hctx

theorem method?_of_picking (owner : JvmType) (name descriptor : String) :
    ctx.method? owner name descriptor = pickingContext.method? owner name descriptor := by
  rw [Context.method?, hctx]
  rfl

theorem render_additionCall {left right : Element} {l r : String}
    (hl : core.render (depth + 1) ctx left = .ok l) (hr : core.render (depth + 1) ctx right = .ok r)
    (stamp : Stamp) : core.render (depth + 1) ctx ⟨.call (additionCall left right), stamp⟩ =
      .ok (parenthesized left l ++ " " ++ "+" ++ " " ++ parenthesized right r) := by
  have hmethod : pickingContext.method? (.reference "A") "access$000" "(II)I" = some addition := rfl
  have haccessed : accessed? ctx (additionCall left right) = some (addition, additionValue) := by
    rw [accessed?, method?_of_picking hctx]
    show (pickingContext.method? (.reference "A") "access$000" "(II)I").bind _ = _
    rw [hmethod, Option.bind_some, decompile_addition]
  have haccessor : isAccessorCall (additionCall left right) := by
    have hname : "access$".isPrefixOf "access$000" = true := by decide +kernel
    exact Bool.and_eq_true_iff.2 ⟨hname, rfl⟩
  have hargs : [left, right].mapM (fun a => parenthesized a <$> core.render (depth + 1) ctx a) =
      .ok [parenthesized left l, parenthesized right r] := by
    rw [List.mapM_cons, List.mapM_cons, hl, hr]
    rfl
  refine render_accessor rfl haccessor haccessed hargs ?_ stamp
  exact render_binary (render_localVar ⟨"x", .int, 0⟩ _) (render_localVar ⟨"y", .int, 1⟩ _)
    .plus .int _

end Picking

-- A call with a sum of private values as the index.
def pickingSum : Call Element :=
  pickingCall (ofShape (.constant (.long 5) .long)) (argument "xs" 0)
    (ofShape (.call (additionCall (argument "p" 1) (argument "q" 2))))

theorem pickingSum_args : (pickingSum.args.take 3).mapM (fun a =>
    parenthesized a <$> core.render 2 pickingContext a) = .ok ["5L", "xs", "p + q"] := by
  have hwidth : core.render 2 pickingContext (ofShape (.constant (.long 5) .long)) = .ok "5L" := by
    have htext : constantText pickingContext (.long 5) = "5L" := by decide +kernel
    rw [← htext]
    exact render_constant (.long 5) .long _
  have harray : core.render 2 pickingContext (argument "xs" 0) = .ok "xs" :=
    render_localVar ⟨"xs", .int, 0⟩ _
  have hindex : core.render 2 pickingContext
      (ofShape (.call (additionCall (argument "p" 1) (argument "q" 2)))) = .ok "p + q" := by
    have htext : "p" ++ " " ++ "+" ++ " " ++ "q" = "p + q" := by decide +kernel
    rw [← htext]
    exact render_additionCall rfl (render_localVar ⟨"p", .int, 1⟩ _)
      (render_localVar ⟨"q", .int, 2⟩ _) _
  show [_, _, _].mapM _ = _
  rw [List.mapM_cons, List.mapM_cons, List.mapM_cons, hwidth, harray, hindex]
  rfl

theorem pickingValue_text : core.render 1 { pickingContext with
    bindings := [(0, "5L"), (2, "xs"), (3, "p + q")] } pickingValue =
      .ok "xs[p + q] + p + q" := by
  let ctx : Context := { pickingContext with bindings := [(0, "5L"), (2, "xs"), (3, "p + q")] }
  have harray (stamp : Stamp) : core.render 1 ctx ⟨.localVar ⟨"a", .array .int, 2⟩, stamp⟩ =
    .ok "xs" := render_localVar ⟨"a", .array .int, 2⟩ stamp
  have hindex (stamp : Stamp) : core.render 1 ctx ⟨.localVar ⟨"i", .int, 3⟩, stamp⟩ =
    .ok "p + q" := render_localVar ⟨"i", .int, 3⟩ stamp
  have htext : "xs" ++ "[" ++ "p + q" ++ "]" ++ " " ++ "+" ++ " " ++ "p + q" =
      "xs[p + q] + p + q" := by decide +kernel
  have hctx : ctx.resolver = pickingContext.resolver := rfl
  show core.render 1 ctx pickingValue = _
  rw [← htext]
  exact render_additionCall hctx (render_arrayLoad (harray _) (hindex _) .int _) (hindex _) _

-- The index stands for a parameter twice, also in the call of an accessor.
theorem inlining_substitutes_picking :
    core.element pickingContext (ofShape (.call pickingSum)) = .ok "xs[p + q] + p + q" ∧
      ∃ texts : List String, (pickingSum.args.take 3).mapM (fun a =>
          parenthesized a <$> core.render 2 pickingContext a) = .ok texts ∧
        core.render 1 pickingContext.unbound (pickingValue.renamed fun v =>
          (argumentAt? pickingSum.signature.parameters texts v.slot).getD v.name) =
            .ok "xs[p + q] + p + q" := by
  have hmethod : pickingContext.method? pickingSum.owner pickingSum.name
      pickingSum.signature.descriptor = some picking := rfl
  have haccessed : accessed? pickingContext pickingSum = some (picking, pickingValue) := by
    rw [accessed?, hmethod, Option.bind_some, decompile_picking]
  have haccessor : isAccessorCall pickingSum := by
    have hname : "access$".isPrefixOf "access$100" = true := by decide +kernel
    exact Bool.and_eq_true_iff.2 ⟨hname, rfl⟩
  have hwritten : isAccessorCall pickingSum && pickingContext.resolver.isSome :=
    Bool.and_eq_true_iff.2 ⟨haccessor, rfl⟩
  have hrule : core.rule? (ofShape (.call pickingSum)) pickingContext = some accessorRule := by
    rw [ofShape, core_rule?_call, hwritten]
    rfl
  have hinlined := inlined?_eq_some haccessor haccessed pickingSum_args pickingValue_text
  rw [← accessorText?_coreRest (e := ofShape (.call pickingSum)) (fun _ h => arg_mem_call h)
    hwritten] at hinlined
  have hvalue : pickingValue.BuiltFrom (IsParameter pickingSum.signature.parameters) := by
    have hi (stamp : Stamp) : BuiltFrom (IsParameter pickingSum.signature.parameters)
        ⟨.localVar ⟨"i", .int, 3⟩, stamp⟩ := .localVar stamp (by decide)
    refine .call _ (by decide) fun part hpart => ?_
    rcases List.mem_cons.1 hpart with rfl | hpart
    · exact .arrayLoad .int _ (.localVar _ (by decide)) (hi _)
    · rw [List.mem_singleton.1 hpart]
      exact hi _
  obtain ⟨htext, below, texts, hdepth, hargs, hrenamed, -⟩ :=
    inlining_substitutes hrule hinlined hmethod decompile_picking (by decide) rfl hvalue
  obtain rfl : 1 = below := Nat.add_right_cancel hdepth
  exact ⟨htext, texts, hargs, hrenamed⟩

end Examples

end Registry

end Render

end JvmLift
