import JvmLift.Proofs.Fragment
import JvmLift.Proofs.Inert

namespace JvmLift

-- The state with other entries on the stack.
def State.leaving (s : State) (stack : List Entry) : State :=
  { s with stack }

namespace Action

variable {s : State}

theorem exec_pop_of_cons {top : Entry} {rest : List Entry} (h : s.stack = top :: rest) :
    exec pop s = (.ok top.element, s.leaving rest) := by
  rw [exec_pop, h]
  rfl

theorem exec_discard_pop_of_cons {top : Entry} {rest : List Entry} (h : s.stack = top :: rest) :
    exec (discard pop) s = (.ok ⟨⟩, s.leaving rest) := by
  rw [exec_discard, exec_pop_of_cons h]
  rfl

theorem exec_removeLastStatement_of_cons {last : Entry} {rest : List Entry}
    (h : s.statements = last :: rest) :
    exec removeLastStatement s = (.ok last.element, { s with statements := rest }) := by
  rw [exec_removeLastStatement, h]

theorem exec_some_pop_of_cons {top : Entry} {rest : List Entry} (h : s.stack = top :: rest) :
    exec (some <$> pop) s = (.ok (some top.element), s.leaving rest) := by
  rw [exec_map, exec_pop_of_cons h]
  rfl

theorem exec_popMany_of_append {entries below : List Entry}
    (h : s.stack = entries.reverse ++ below) :
    exec (popMany entries.length) s = (.ok (entries.map (·.element)), s.leaving below) := by
  have hlen : entries.reverse.length = entries.length := List.length_reverse
  have hle : ¬s.stack.length < entries.length := by
    rw [h, List.length_append, hlen]
    omega
  rw [exec_popMany, if_neg hle, h, ← hlen, List.take_left, List.drop_left, List.reverse_reverse]
  rfl

theorem exec_read_moved {α : Type} {r : Reading α} {v : α} {bytes rest : Bytes} {pc after : Nat}
    (h : exec r (.fresh bytes pc) = (.ok v, .fresh rest after)) (instructionPc : Nat) :
    exec (read r) (s.moved bytes pc instructionPc) = (.ok v, s.moved rest after instructionPc) := by
  have hc : (s.moved bytes pc instructionPc).cursor = .fresh bytes pc := rfl
  rw [exec_read, hc, h]
  rfl

theorem exec_bind_read {α β : Type} {r : Reading α} {v : α} {bytes rest : Bytes} {pc after : Nat}
    (h : exec r (.fresh bytes pc) = (.ok v, .fresh rest after)) {f : α → Action β}
    {instructionPc : Nat} :
    exec (read r >>= f) (s.moved bytes pc instructionPc) =
      exec (f v) (s.moved rest after instructionPc) :=
  exec_bind_of_ok (exec_read_moved h instructionPc) f

theorem exec_lift_of_ok {α : Type} {e : Except ClassFileError α} {v : α} (h : e = .ok v) :
    exec (liftM e : Action α) s = (.ok v, s) := by
  rw [exec_lift, h]

theorem exec_classType {index : UInt16} {name : String} {ty : JvmType}
    (h : s.method.pool.className index = .ok name) (hty : JvmType.ofClassName? name = some ty) :
    exec (classType index) s = (.ok ty, s) := by
  have hp : s.pool.className index = .ok name := h
  rw [classType, exec_bind_of_ok (exec_get s), exec_bind_of_ok (exec_lift_of_ok hp), hty]
  rfl

-- Many instructions name a class and go on with the type it stands for.
theorem exec_bind_classType {β : Type} {index : UInt16} {name : String} {ty : JvmType}
    (h : s.method.pool.className index = .ok name) (hty : JvmType.ofClassName? name = some ty)
    {f : JvmType → Action β} {rest : Bytes} {pc instructionPc : Nat} :
    exec (read Reading.u16 >>= fun index => classType index >>= f)
        (s.moved (wideBytes index ++ rest) pc instructionPc) =
      exec (f ty) (s.moved rest (pc + 2) instructionPc) := by
  have hm : (s.moved rest (pc + 2) instructionPc).method.pool.className index = .ok name := h
  rw [exec_bind_read (Reading.exec_u16_fresh ..)]
  exact exec_bind_of_ok (exec_classType hm hty) f

theorem exec_local? {slot : UInt16} {pc : Nat} {v : LocalVariable}
    (h : s.method.localAt? slot pc = some v) :
    exec (local? slot pc) s = (.ok ⟨v.name, v.ty, slot⟩, s) := by
  rw [local?, exec_bind_of_ok (exec_get s)]
  simp only [State.local?, h]
  rfl

end Action

namespace Method.Covers

variable {m : Method} {slot : UInt16} {v : LocalVariable} (h : m.Covers slot v)
include h

theorem localAt?_of_lt {pc : Nat} (hpc : pc < m.code.length) : m.localAt? slot pc = some v := by
  have hlive : v.isLiveAt pc := by
    have hclosed := h.closed
    simp [LocalVariable.isLiveAt, h.opened]
    omega
  have hsome : (m.localAt? slot pc).isSome := by
    rw [localAt?, List.find?_isSome]
    exact ⟨v, h.declared, by simp [h.placed, hlive]⟩
  obtain ⟨u, hu⟩ := Option.isSome_iff_exists.1 hsome
  have hslot : u.slot = slot := by
    have hp := List.find?_some hu
    exact of_decide_eq_true (Bool.and_eq_true_iff.1 hp).1
  rw [hu, h.only u (List.mem_of_find?_eq_some hu) hslot]

theorem localAt?_eq (pc : Nat) : m.localAt? slot pc = some v ∨ m.localAt? slot pc = none := by
  cases hu : m.localAt? slot pc with
  | none => exact .inr rfl
  | some u =>
    have hslot : u.slot = slot := by
      have hp := List.find?_some hu
      exact of_decide_eq_true (Bool.and_eq_true_iff.1 hp).1
    rw [h.only u (List.mem_of_find?_eq_some hu) hslot]
    exact .inl rfl

end Method.Covers

namespace Instruction

variable {s : State} {m : Method} {below : List Entry}

theorem Literal.exec_loadConstant {index : UInt16} {value : Loadable} {e : Element}
    (h : s.method.pool.loadable index = .ok value) (he : value.expression? = some e) :
    exec (loadConstant index value.category) s = (.ok ⟨⟩, s.push e) := by
  have hp : s.pool.loadable index = .ok value := h
  have helement : element value = .ok e := by
    cases value with
    | int | long | string =>
      cases he
      rfl
    | _ => cases he
  rw [loadConstant, exec_bind_of_ok (exec_get s), exec_bind_of_ok (Action.exec_lift_of_ok hp),
    if_neg (not_not.2 rfl), helement]
  rfl

theorem Local.exec_load {slot : UInt16} {v : LocalVariable}
    (h : s.method.localAt? slot s.instructionPc = some v) :
    exec (load slot) s = (.ok ⟨⟩, s.push (.ofShape (.localVar ⟨v.name, v.ty, slot⟩))) := by
  rw [load, exec_bind_of_ok (exec_get s), exec_bind_of_ok (Action.exec_local? h)]
  rfl

-- A store finds its variable behind the instruction or else at it.
theorem Local.exec_store {slot : UInt16} {v : LocalVariable} {top : Entry}
    (hs : s.stack = top :: below) (hv : s.method.Covers slot v)
    (hpc : s.instructionPc < s.method.code.length) :
    exec (store slot) s = (.ok ⟨⟩, (s.leaving below).enlist
      (.ofShape (.assign slot v.name v.ty top.element))) := by
  have hat : (s.leaving below).method.localAt? slot s.instructionPc = some v :=
    hv.localAt?_of_lt hpc
  rw [store, exec_bind_of_ok (Action.exec_pop_of_cons hs), exec_bind_of_ok (exec_get _)]
  rcases hv.localAt?_eq s.pc with hb | hb
  all_goals
    have hb' : (s.leaving below).method.localAt? slot (s.leaving below).pc = _ := hb
    simp only [State.local?, hb']
  · rfl
  · exact exec_bind_of_ok (Action.exec_local? hat) _

theorem Arithmetic.exec_binary {left right : Entry} (op : BinaryOp) (ty : JvmType)
    (hs : s.stack = right :: left :: below) :
    exec (binary op ty) s = (.ok ⟨⟩, (s.leaving below).push
      (.ofShape (.binary left.element op right.element ty))) := by
  have hl : (s.leaving (left :: below)).stack = left :: below := rfl
  rw [binary, exec_bind_of_ok (Action.exec_pop_of_cons hs),
    exec_bind_of_ok (Action.exec_pop_of_cons hl)]
  rfl

theorem Arithmetic.exec_negate {operand : Entry} (hs : s.stack = operand :: below) :
    exec negate s = (.ok ⟨⟩, (s.leaving below).push
      (.ofShape (.unary operand.element .neg operand.element.ty))) := by
  rw [negate, exec_bind_of_ok (Action.exec_pop_of_cons hs)]
  rfl

theorem Array.exec_allocate {length : Entry} (component : JvmType)
    (hs : s.stack = length :: below) :
    exec (allocate component) s = (.ok ⟨⟩, (s.leaving below).push
      (.ofShape (.newArray (.array component) component length.element []))) := by
  rw [allocate, exec_bind_of_ok (Action.exec_pop_of_cons hs)]
  rfl

theorem Array.loadedType_elementLoad (component : JvmType) :
    loadedType (Opcode.elementLoad component) (.array component) = .ok component := by
  cases component <;> rfl

theorem Array.exec_load {array index : Entry} {component : JvmType}
    (hs : s.stack = index :: array :: below) (hty : array.element.ty = .array component) :
    exec (load (Opcode.elementLoad component)) s = (.ok ⟨⟩, (s.leaving below).push
      (.ofShape (.arrayLoad array.element index.element component))) := by
  have hl : (s.leaving (array :: below)).stack = array :: below := rfl
  rw [load, exec_bind_of_ok (Action.exec_pop_of_cons hs),
    exec_bind_of_ok (Action.exec_pop_of_cons hl), hty, loadedType_elementLoad]
  rfl

theorem Array.exec_store {array index value : Entry}
    (hs : s.stack = value :: index :: array :: below) (hk : array.element.kind ≠ .newArray) :
    exec store s = (.ok ⟨⟩, (s.leaving below).enlist
      (.ofShape (.arrayStore array.element index.element value.element))) := by
  have hl : (s.leaving (index :: array :: below)).stack = index :: array :: below := rfl
  have hr : ((s.leaving (index :: array :: below)).leaving (array :: below)).stack =
    array :: below := rfl
  rw [store, exec_bind_of_ok (Action.exec_pop_of_cons hs),
    exec_bind_of_ok (Action.exec_pop_of_cons hl), exec_bind_of_ok (Action.exec_pop_of_cons hr)]
  obtain ⟨⟨shape, stamp⟩, pc, version⟩ := array
  cases shape with
  | newArray => exact absurd rfl hk
  | _ => rfl

theorem Call.ofDescriptor_eq {text : String} {signature : MethodDescriptor}
    (h : MethodDescriptor.ofDescriptor? text = some signature) :
    MethodDescriptor.ofDescriptor text = .ok signature := by
  rw [MethodDescriptor.ofDescriptor, h]

theorem Call.exec_call_static {index : UInt16} {member : MemberRef}
    {signature : MethodDescriptor} {args : List Entry} (h : s.method.Names index member signature)
    (hname : member.name ≠ "<init>") (hargs : args.length = signature.parameters.length)
    (hs : s.stack = args.reverse ++ below) :
    exec (call index true) s = (.ok ⟨⟩, (s.leaving below).push (.ofShape (.call
      ⟨.reference member.owner, member.name, signature, none, args.map (·.element),
        signature.result⟩))) := by
  have hp : s.pool.methodRef index = .ok member := h.found
  rw [call, exec_bind_of_ok (exec_get s), exec_bind_of_ok (Action.exec_lift_of_ok hp),
    exec_bind_of_ok (Action.exec_lift_of_ok (ofDescriptor_eq h.described)), ← hargs,
    exec_bind_of_ok (Action.exec_popMany_of_append hs), if_pos rfl,
    exec_bind_of_ok (exec_pure none _), if_neg hname]
  rfl

-- The target of a call lies below its arguments. A constructor yields its object.
theorem Call.exec_call {index : UInt16} {member : MemberRef} {signature : MethodDescriptor}
    {target : Entry} {args : List Entry} (h : s.method.Names index member signature)
    (hargs : args.length = signature.parameters.length)
    (hs : s.stack = args.reverse ++ target :: below) :
    exec (call index false) s = (.ok ⟨⟩, (s.leaving below).push (.ofShape (.call
      ⟨.reference member.owner, member.name, signature, some target.element,
        args.map (·.element),
        if member.name = "<init>" then .reference member.owner else signature.result⟩))) := by
  have hp : s.pool.methodRef index = .ok member := h.found
  have hl : (s.leaving (target :: below)).stack = target :: below := rfl
  rw [call, exec_bind_of_ok (exec_get s), exec_bind_of_ok (Action.exec_lift_of_ok hp),
    exec_bind_of_ok (Action.exec_lift_of_ok (ofDescriptor_eq h.described)), ← hargs,
    exec_bind_of_ok (Action.exec_popMany_of_append hs), if_neg Bool.false_ne_true,
    exec_bind_of_ok (Action.exec_some_pop_of_cons hl)]
  rfl

theorem Object.exec_field_static {index : UInt16} {member : MemberRef} {ty : JvmType}
    {rest : Bytes} {pc instructionPc : Nat} (h : s.method.pool.fieldRef index = .ok member)
    (hty : JvmType.ofDescriptor? member.descriptor = some ty) :
    exec (field false) (s.moved (wideBytes index ++ rest) pc instructionPc) =
      (.ok ⟨none, .reference member.owner, ty, member.name⟩,
        s.moved rest (pc + 2) instructionPc) := by
  have hp : (s.moved rest (pc + 2) instructionPc).pool.fieldRef index = .ok member := h
  rw [field, Action.exec_bind_read (Reading.exec_u16_fresh ..),
    exec_bind_of_ok (exec_get _), exec_bind_of_ok (Action.exec_lift_of_ok hp), hty]
  rfl

theorem Object.exec_field {index : UInt16} {member : MemberRef} {ty : JvmType} {target : Entry}
    {rest : Bytes} {pc instructionPc : Nat} (h : s.method.pool.fieldRef index = .ok member)
    (hty : JvmType.ofDescriptor? member.descriptor = some ty)
    (hs : s.stack = target :: below) :
    exec (field true) (s.moved (wideBytes index ++ rest) pc instructionPc) =
      (.ok ⟨some target.element, .reference member.owner, ty, member.name⟩,
        (s.moved rest (pc + 2) instructionPc).leaving below) := by
  have hp : (s.moved rest (pc + 2) instructionPc).pool.fieldRef index = .ok member := h
  have hl : (s.moved rest (pc + 2) instructionPc).stack = target :: below := hs
  rw [field, Action.exec_bind_read (Reading.exec_u16_fresh ..),
    exec_bind_of_ok (exec_get _), exec_bind_of_ok (Action.exec_lift_of_ok hp), hty]
  exact exec_bind_of_ok (Action.exec_some_pop_of_cons hl) _

end Instruction

end JvmLift
