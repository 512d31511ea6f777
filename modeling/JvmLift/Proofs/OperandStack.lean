import JvmLift.Proofs.Line
import JvmLift.Proofs.Outcomes

namespace JvmLift

namespace Fragment

open Instruction Opcode

-- What an instruction of straight-line code does to the machine's operand stack: the categories of
-- the values that it takes and of those that it leaves, the top first.
inductive Moves (m : Method) : Bytes → List Nat → List Nat → Prop where
  | push {a : Action Unit} {code : Bytes} (h : Pushes a code) : Moves m code [] [movedCategory code]
  | load {slot : UInt16} {code : Bytes} (h : Loads slot code) : Moves m code [] [movedCategory code]
  | store {slot : UInt16} {code : Bytes} (h : Stores slot code) :
    Moves m code [movedCategory code] []
  | increment (slot : UInt8) (delta : Int8) : Moves m [iinc, slot, delta.toUInt8] [] []
  | incrementWide (slot : UInt16) (delta : Int16) :
    Moves m (Opcode.wide :: iinc :: (wideBytes slot ++ wideBytes delta.toUInt16)) [] []
  | binary {code : Opcode} {op : BinaryOp} {ty : JvmType}
    (h : (code, op, ty) ∈ Arithmetic.binaryOperators)
    (hshift : op ∉ [.leftShift, .rightShift, .unsignedRightShift]) :
    Moves m [code] [ty.category, ty.category] [ty.category]
  -- the distance of a shift is an int
  | shift {code : Opcode} {op : BinaryOp} {ty : JvmType}
    (h : (code, op, ty) ∈ Arithmetic.binaryOperators)
    (hshift : op ∈ [.leftShift, .rightShift, .unsignedRightShift]) :
    Moves m [code] [1, ty.category] [ty.category]
  | call {index : UInt16} {member : MemberRef} {signature : MethodDescriptor}
    (h : m.pool.methodRef index = .ok member)
    (hd : MethodDescriptor.ofDescriptor? member.descriptor = some signature)
    (hname : member.name ≠ "<init>") (hvoid : .void ∉ signature.parameters) :
    Moves m (invokestatic :: wideBytes index) (signature.parameters.reverse.map (·.category))
      (if signature.result = .void then [] else [signature.result.category])
  | pop : Moves m [Opcode.pop] [1] []
  | popPair : Moves m [pop2] [1, 1] []
  | popWide : Moves m [pop2] [2] []

end Fragment

namespace Element

-- Whether the value of the element is that of a variable, which has been counted up or down or not.
def isRead (e : Element) : Bool :=
  match e.shape with
  | .localVar _ | .increment _ _ _ .before | .increment _ _ _ .after => true
  | _ => false

theorem isSpent_of_isRead {e : Element} (h : e.isRead) : e.isSpent = false := by
  obtain ⟨shape, stamp⟩ := e
  cases shape with
  | localVar => rfl
  | increment v delta ty affix =>
    cases affix with
    | pending => cases h
    | _ => rfl
  | _ => cases h

theorem isRead_withAffix {e load : Element} (h : e.isPendingIncrementOf load) {affix : Affix}
    (ha : affix ≠ .pending) : (e.withAffix affix).isRead := by
  obtain ⟨shape, stamp⟩ := e
  cases shape with
  | increment v delta ty old =>
    cases affix with
    | pending => exact absurd rfl ha
    | _ => rfl
  | _ => cases h

theorem isSpent_of_constant {e : Element} (h : e.kind = .constant) : e.isSpent = false := by
  obtain ⟨shape, stamp⟩ := e
  cases shape with
  | constant => rfl
  | _ => cases h

theorem isSpent_of_isPendingIncrementOf_right {e load : Element}
    (h : e.isPendingIncrementOf load) : load.isSpent = false := by
  obtain ⟨shape, stamp⟩ := load
  cases shape with
  | localVar => rfl
  | _ =>
    rw [isPendingIncrementOf] at h
    split at h
    · cases ‹_ = Shape.localVar _›
    · cases h

end Element

section Entry

variable (s : State) (e : Element)

theorem State.isSpent_entry : (s.entry e).element.isSpent = e.isSpent := by
  obtain ⟨stamp, h⟩ := s.exists_entry_eq e
  rw [h]
  rfl

theorem State.isRead_entry : (s.entry e).element.isRead = e.isRead := by
  obtain ⟨stamp, h⟩ := s.exists_entry_eq e
  rw [h]
  rfl

theorem State.ty_entry : (s.entry e).element.ty = e.ty := by
  obtain ⟨stamp, h⟩ := s.exists_entry_eq e
  rw [h]
  rfl

end Entry

end JvmLift
