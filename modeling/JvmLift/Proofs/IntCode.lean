import JvmLift.Proofs.Counting
import JvmLift.Proofs.Straight

namespace JvmLift

-- The value of an operator on ints. Sums, differences and products wrap around.
def BinaryOp.int? : BinaryOp → Int32 → Int32 → Option Int32
  | .plus, left, right => some (left + right)
  | .minus, left, right => some (left - right)
  | .multiply, left, right => some (left * right)
  | _, _, _ => none

namespace Element

-- The value of an expression on int variables. Operands are evaluated from left to right, and a
-- boolean counts as the int that it was.
def int? (e : Element) : Locals → Option Int32 :=
  e.fold fun shape _ locals =>
    match shape with
    | .constant (.int value) _ => some value
    | .constant (.boolean value) _ => some (if value then 1 else 0)
    | .localVar v => some (locals v.slot)
    | .binary left op right _ =>
      (left locals).bind fun left => (right locals).bind fun right => op.int? left right
    | .unary operand .neg _ => (operand locals).map (-·)
    | _ => none

-- Executes statements on int variables up to the return, which gives a value. What it leaves in
-- the variables counts as well.
def runInts? : List Element → Locals → Option (Int32 × Locals)
  | [], _ => none
  | e :: es, locals =>
    match e.shape with
    | .assign slot _ _ value =>
      (value.int? locals).bind fun value => runInts? es (Function.update locals slot value)
    | .returnValue value => (value.int? locals).map fun value => (value, locals)
    | _ => none

end Element

-- An instruction on ints.
inductive IntOp where
  | push (value : Int32)
  | load (slot : UInt16)
  | store (slot : UInt16)
  | dup
  | add
  | sub
  | mul
  | neg
deriving DecidableEq

namespace IntOp

open Opcode in
-- The code of an instruction.
inductive Encodes (m : Method) : IntOp → Bytes → Prop where
  | push {value : Int32} {code : Bytes} (h : Fragment.Constants m (.int value) code) :
    Encodes m (.push value) code
  | load {slot : UInt16} {code : Bytes} (h : Fragment.Loads slot code)
    (hint : unprefixed code ∈ integerLoads) : Encodes m (.load slot) code
  | store {slot : UInt16} {code : Bytes} (h : Fragment.Stores slot code)
    (hint : unprefixed code ∈ integerStores) : Encodes m (.store slot) code
  | dup : Encodes m .dup [Opcode.dup]
  | add : Encodes m .add [iadd]
  | sub : Encodes m .sub [isub]
  | mul : Encodes m .mul [imul]
  | neg : Encodes m .neg [ineg]

-- The code of instructions one after the other.
inductive Code (m : Method) : List IntOp → Bytes → Prop where
  | nil : Code m [] []
  | cons {op : IntOp} {ops : List IntOp} {code rest : Bytes} (h : op.Encodes m code)
    (hs : Code m ops rest) : Code m (op :: ops) (code ++ rest)

-- What an instruction does to the machine: to the operand stack, whose top is first, and to the
-- variables. It needs its operands.
def run : IntOp → List Int32 × Locals → Option (List Int32 × Locals)
  | push value, (stack, locals) => some (value :: stack, locals)
  | load slot, (stack, locals) => some (locals slot :: stack, locals)
  | store slot, (top :: stack, locals) => some (stack, Function.update locals slot top)
  | dup, (top :: stack, locals) => some (top :: top :: stack, locals)
  | add, (right :: left :: stack, locals) => some ((left + right) :: stack, locals)
  | sub, (right :: left :: stack, locals) => some ((left - right) :: stack, locals)
  | mul, (right :: left :: stack, locals) => some (left * right :: stack, locals)
  | neg, (operand :: stack, locals) => some (-operand :: stack, locals)
  | _, _ => none

def runAll (ops : List IntOp) (machine : List Int32 × Locals) : Option (List Int32 × Locals) :=
  ops.foldlM (fun machine op => op.run machine) machine

-- The variables that the values on the operand stack were made of, the top first.
def reads : IntOp → List (List UInt16) → List (List UInt16)
  | push _, stack => [] :: stack
  | load slot, stack => [slot] :: stack
  | store _, _ :: stack => stack
  | dup, top :: stack => top :: top :: stack
  | add, right :: left :: stack | sub, right :: left :: stack | mul, right :: left :: stack =>
    (left ++ right) :: stack
  | _, stack => stack

-- Whether no variable is written while a value that was made of it waits below the one that is
-- stored.
def isClear : IntOp → List (List UInt16) → Bool
  | store slot, _ :: waiting => waiting.all fun slots => slot ∉ slots
  | _, _ => true

def allClear : List (List UInt16) → List IntOp → Bool
  | _, [] => true
  | stack, op :: ops => op.isClear stack && allClear (op.reads stack) ops

end IntOp

namespace Element

section Int

variable {e : Element} {locals : Locals}

theorem int?_stamped (e : Element) (stamp : Stamp) : (e.stamped stamp).int? = e.int? := by
  obtain ⟨shape, old⟩ := e
  rw [int?, int?, stamped, fold_mk, fold_mk]

theorem int?_binary (left : Element) (op : BinaryOp) (right : Element) (ty : JvmType)
    (locals : Locals) :
    (ofShape (.binary left op right ty)).int? locals =
      (left.int? locals).bind fun a => (right.int? locals).bind fun b => op.int? a b := by
  rw [int?, ofShape, fold_mk]
  rfl

theorem int?_neg (operand : Element) (ty : JvmType) (locals : Locals) :
    (ofShape (.unary operand .neg ty)).int? locals = (operand.int? locals).map (-·) := by
  rw [int?, ofShape, fold_mk]
  rfl

-- What has a value has no effect.
theorem isStatement_of_int? (h : (e.int? locals).isSome) : e.isStatement = false := by
  obtain ⟨shape, stamp⟩ := e
  rw [int?, fold_mk] at h
  cases shape with
  | constant | localVar | binary | unary => rfl
  | _ => cases h

theorem kind_ne_newArray_of_int? (h : (e.int? locals).isSome) : e.kind ≠ .newArray := by
  obtain ⟨shape, stamp⟩ := e
  rw [int?, fold_mk] at h
  cases shape with
  | newArray => cases h
  | _ => exact nofun

theorem int?_booleanLiteral? {d : Element} (h : e.booleanLiteral? = some d) :
    d.int? = e.int? := by
  obtain ⟨shape, stamp⟩ := e
  have hconstant (value : Int32) (hv : isInt ⟨shape, stamp⟩ value) :
      ∃ ty, shape = .constant (.int value) ty := by
    have hv' := of_decide_eq_true (Bool.and_eq_true_iff.1 hv).1
    rw [intConstant?] at hv'
    split at hv'
    · cases hv'
      exact ⟨_, ‹_›⟩
    · cases hv'
  rw [booleanLiteral?] at h
  split_ifs at h with hzero hone
  · obtain ⟨ty, rfl⟩ := hconstant 0 hzero
    cases h
    rfl
  · obtain ⟨ty, rfl⟩ := hconstant 1 hone
    cases h
    rfl

variable {d : Element} (es : List Element)

-- An assignment of a boolean does what that of the int did.
theorem runInts?_booleanAssignment? (h : e.booleanAssignment? = some d) (locals : Locals) :
    runInts? (d :: es) locals = runInts? (e :: es) locals := by
  rw [booleanAssignment?] at h
  split at h
  · obtain ⟨literal, hliteral, rfl⟩ := Option.map_eq_some_iff.1 h
    have hshape : e.shape = _ := ‹_›
    rw [runInts?, runInts?, hshape]
    simp only [ofShape, int?_booleanLiteral? hliteral]
  · cases h

theorem runInts?_booleanReturn? (h : e.booleanReturn? = some d) (locals : Locals) :
    runInts? (d :: es) locals = runInts? (e :: es) locals := by
  rw [booleanReturn?] at h
  split at h
  · obtain ⟨literal, hliteral, rfl⟩ := Option.map_eq_some_iff.1 h
    have hshape : e.shape = _ := ‹_›
    rw [runInts?, runInts?, hshape]
    simp only [ofShape, int?_booleanLiteral? hliteral]
  · cases h

end Int

end Element

end JvmLift
