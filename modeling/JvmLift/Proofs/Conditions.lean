import JvmLift.Proofs.Jumps

namespace JvmLift

-- A value on the operand stack of the machine. Booleans are ints, and the null reference is the one
-- that leads to no object. A floating-point number is of any type with a comparison.
inductive Value (F : Type) where
  | int (value : Int32)
  | long (value : Int64)
  | floating (value : F)
  | reference (object : Option Nat)
deriving DecidableEq

-- How two floating-point numbers compare, unless they are unordered, and the values that the
-- elements of a run stand for.
structure Valuation (F : Type) where
  order : F → F → Option Ordering
  value : Element → Value F

-- Whether a comparison holds between two values that compare in a way, or that are unordered.
-- Other operators are no comparisons.
def BinaryOp.accepts? : BinaryOp → Option Ordering → Option Bool
  | .eq, found => some (found = some .eq)
  | .ne, found => some (found ≠ some .eq)
  | .lt, found => some (found = some .lt)
  | .le, found => some (found = some .lt ∨ found = some .eq)
  | .gt, found => some (found = some .gt)
  | .ge, found => some (found = some .gt ∨ found = some .eq)
  | _, _ => none

-- What a conditional jump compares the operands on top of the stack with.
inductive Compared where
  | zero
  | null
  | ints
  | references
deriving DecidableEq

-- The two values that are compared and what is below the operands.
def Compared.operands? {F : Type} :
    Compared → List (Value F) → Option (Value F × Value F × List (Value F))
  | .zero, .int a :: rest => some (.int a, .int 0, rest)
  | .null, .reference a :: rest => some (.reference a, .reference none, rest)
  | .ints, .int b :: .int a :: rest => some (.int a, .int b, rest)
  | .references, .reference b :: .reference a :: rest => some (.reference a, .reference b, rest)
  | _, _ => none

namespace Opcode

-- The conditional jumps with what they compare and the comparison by which they jump.
def conditions : List (Opcode × Compared × BinaryOp) :=
  [(0x99, .zero, .eq), (0x9a, .zero, .ne), (0x9b, .zero, .lt), (0x9c, .zero, .ge),
   (0x9d, .zero, .gt), (0x9e, .zero, .le), (0x9f, .ints, .eq), (0xa0, .ints, .ne),
   (0xa1, .ints, .lt), (0xa2, .ints, .ge), (0xa3, .ints, .gt), (0xa4, .ints, .le),
   (0xa5, .references, .eq), (0xa6, .references, .ne), (0xc6, .null, .eq), (0xc7, .null, .ne)]

-- What the comparison of two floating-point numbers gives where they are unordered.
def bias? (code : Opcode) : Option Int32 :=
  [(0x95, -1), (0x96, 1), (0x97, -1), (0x98, 1)].lookup code

-- The int for the result of a three-way comparison.
def sign : Ordering → Int32
  | .lt => -1
  | .eq => 0
  | .gt => 1

end Opcode

namespace Valuation

variable {F : Type} (ν : Valuation F)

-- The value of an element. A constant that is no text and no floating-point number is its own
-- value.
def read (e : Element) : Value F :=
  match e.shape with
  | .constant (.int value) _ => .int value
  | .constant (.boolean value) _ => .int (if value then 1 else 0)
  | .constant (.long value) _ => .long value
  | .constant .null _ => .reference none
  | _ => ν.value e

-- The values of the entries of a stack.
def readAll (stack : List Entry) : List (Value F) :=
  stack.map fun e => ν.read e.element

-- How two values compare. References are equal, or they are unordered.
def compared : Value F → Value F → Option Ordering
  | .int a, .int b => some (compare a.toInt b.toInt)
  | .long a, .long b => some (compare a.toInt b.toInt)
  | .floating a, .floating b => ν.order a b
  | .reference a, .reference b => if a = b then some .eq else none
  | _, _ => none

-- The truth of a boolean expression whose operands have values.
def holds? (e : Element) : Option Bool :=
  match e.shape with
  | .binary left op right _ => op.accepts? (ν.compared (ν.read left) (ν.read right))
  | .unary operand .not _ =>
    match ν.read operand with
    | .int value => some (value = 0)
    | _ => none
  | _ => none

-- Whether a conditional jump is taken, and what it leaves of the operand stack.
def decide? (compared : Compared) (op : BinaryOp) (stack : List (Value F)) :
    Option (Bool × List (Value F)) :=
  (compared.operands? stack).bind fun (left, right, rest) =>
    (op.accepts? (ν.compared left right)).map (·, rest)

-- The result of a three-way comparison.
def threeWay? (code : Opcode) : Value F → Value F → Option Int32
  | .long a, .long b =>
    if code = Opcode.lcmp then some (Opcode.sign (compare a.toInt b.toInt)) else none
  | .floating a, .floating b =>
    (Opcode.bias? code).map fun bias => ((ν.order a b).map Opcode.sign).getD bias
  | _, _ => none

-- A three-way comparison stands for what an instruction gives for the values of its operands.
def Respects (e : Element) : Prop :=
  ∀ left right, e.shape = .compare left right →
    ∃ code value, ν.threeWay? code (ν.read left) (ν.read right) = some value ∧
      ν.read e = .int value

end Valuation

-- The machine with the position of the next instruction and its operand stack, the top first.
structure Machine (F : Type) where
  pc : Nat
  stack : List (Value F)
deriving DecidableEq

namespace Machine

variable {F : Type} (ν : Valuation F) (code : Bytes)

-- Executes an instruction that compares, chooses the way or puts a bit on the stack.
def step? (machine : Machine F) : Option (Machine F) :=
  (code[machine.pc]?).bind fun head =>
    if head = Opcode.iconst0 then some ⟨machine.pc + 1, .int 0 :: machine.stack⟩
    else if head = Opcode.iconst0 + 1 then some ⟨machine.pc + 1, .int 1 :: machine.stack⟩
    else if head = Opcode.goto then
      (Opcode.jumpAt? code machine.pc).map fun (_, target) => ⟨target.toNat, machine.stack⟩
    else
      match Opcode.conditions.lookup head with
      | some (compared, op) =>
        (ν.decide? compared op machine.stack).bind fun (taken, rest) =>
          (Opcode.jumpAt? code machine.pc).map fun (_, target) =>
            ⟨if taken then target.toNat else machine.pc + 3, rest⟩
      | none =>
        match machine.stack with
        | right :: left :: rest =>
          (ν.threeWay? head left right).map fun value => ⟨machine.pc + 1, .int value :: rest⟩
        | _ => none

-- Any number of instructions.
abbrev Runs : Machine F → Machine F → Prop :=
  Relation.ReflTransGen fun a b => a.step? ν code = some b

end Machine

-- Whether a three-way comparison of unordered operands sends a jump a way that no comparison of the
-- operands themselves accounts for.
def Opcode.misleads (code : Opcode) (op : BinaryOp) : Bool :=
  bias? code = some (-1) && (op = .ge || op = .gt) || bias? code = some 1 && (op = .lt || op = .le)

namespace Valuation

variable {F : Type} {ν : Valuation F} {left right : Element} {op inverse : BinaryOp}
  {taken : Bool}

-- Whether a branch asks for the result of such a comparison.
def Misled (ν : Valuation F) (left : Element) (op : BinaryOp) (right : Element) : Prop :=
  right.isInt 0 ∧ ∃ l r code value, left.shape = .compare l r ∧
    ν.compared (ν.read l) (ν.read r) = none ∧
    ν.threeWay? code (ν.read l) (ν.read r) = some value ∧ ν.read left = .int value ∧
    Opcode.misleads code op

-- The inverse comparison is the opposite of a comparison of ordered values.
theorem accepts?_inverse (h : op.inverse? = some inverse) (order : Ordering) :
    inverse.accepts? (some order) = (op.accepts? (some order)).map (!·) := by
  revert h
  cases op <;> cases order <;> cases inverse <;> decide

-- For unordered values that is so if the comparison asks for equality only.
theorem accepts?_inverse_of_equality (h : op.inverse? = some inverse) (hop : op = .eq ∨ op = .ne)
    (found : Option Ordering) : inverse.accepts? found = (op.accepts? found).map (!·) := by
  rcases hop with rfl | rfl <;> cases h <;> simp [BinaryOp.accepts?]

theorem read_of_isInt {value : Int32} (h : right.isInt value) : ν.read right = .int value := by
  obtain ⟨shape, stamp⟩ := right
  have hconstant := of_decide_eq_true (Bool.and_eq_true_iff.1 h).1
  cases shape with
  | constant c ty =>
    cases c with
    | int v => exact congrArg _ (Option.some.inj hconstant)
    | _ => cases hconstant
  | _ => cases hconstant

-- A three-way comparison gives the sign for ordered values, and otherwise what is set for it.
theorem compared_of_threeWay? {code : Opcode} {a b : Value F} {value : Int32}
    (h : ν.threeWay? code a b = some value) :
    (∃ order, ν.compared a b = some order ∧ value = Opcode.sign order) ∨
      ν.compared a b = none ∧ Opcode.bias? code = some value := by
  cases a with
  | long a =>
    cases b with
    | long b =>
      rw [threeWay?] at h
      split at h
      · exact .inl ⟨_, rfl, (Option.some.inj h).symm⟩
      · cases h
    | _ => cases h
  | floating a =>
    cases b with
    | floating b =>
      obtain ⟨bias, hbias, hvalue⟩ := Option.map_eq_some_iff.1 h
      cases horder : ν.order a b with
      | some order =>
        rw [horder] at hvalue
        exact .inl ⟨order, horder, hvalue.symm⟩
      | none =>
        rw [horder] at hvalue
        obtain rfl : bias = value := hvalue
        exact .inr ⟨horder, hbias⟩
    | _ => cases h
  | _ => cases h

theorem compare_sign (order : Ordering) : compare (Opcode.sign order).toInt 0 = order := by
  cases order <;> decide

theorem bias?_cases {code : Opcode} {value : Int32} (h : Opcode.bias? code = some value) :
    value = -1 ∨ value = 1 := by
  rw [Opcode.bias?, List.lookup_eq_some_iff] at h
  obtain ⟨front, back, hlist, -⟩ := h
  have hmem : (code, value) ∈ [(0x95, -1), (0x96, 1), (0x97, -1), (0x98, (1 : Int32))] :=
    hlist ▸ List.mem_append_right front (List.mem_cons_self ..)
  simp only [List.mem_cons, Prod.mk.injEq, List.not_mem_nil, or_false] at hmem
  rcases hmem with ⟨-, h⟩ | ⟨-, h⟩ | ⟨-, h⟩ | ⟨-, h⟩
  · exact .inl h
  · exact .inr h
  · exact .inl h
  · exact .inr h

-- Where the operands of a three-way comparison are unordered, the jump asks for a bias. The inverse
-- comparison of the operands does not hold unless it is the one for inequality.
theorem accepts?_bias {code : Opcode} {value : Int32} (hbias : Opcode.bias? code = some value)
    (hop : op.inverse? = some inverse)
    (htaken : op.accepts? (some (compare value.toInt 0)) = some taken) :
    ∃ holds, inverse.accepts? none = some holds ∧
      (holds = !taken ↔ ¬Opcode.misleads code op) := by
  rw [Opcode.misleads, hbias]
  rcases bias?_cases hbias with rfl | rfl
  all_goals
    revert hop htaken
    cases op <;> cases inverse <;> cases taken <;> decide

-- A branch is misled by a comparison of unordered operands that its own operand is the result of.
theorem misled_iff {l r : Element} {code : Opcode} {value : Int32}
    (hleft : left.shape = .compare l r) (hright : right.isInt 0)
    (hunordered : ν.compared (ν.read l) (ν.read r) = none)
    (hresult : ν.threeWay? code (ν.read l) (ν.read r) = some value)
    (hvalue : ν.read left = .int value) : ν.Misled left op right ↔ Opcode.misleads code op := by
  constructor
  · rintro ⟨-, l', r', code', value', hleft', -, hresult', hvalue', hmisleads⟩
    obtain ⟨rfl, rfl⟩ := Shape.compare.inj (hleft.symm.trans hleft')
    obtain rfl := Value.int.inj (hvalue.symm.trans hvalue')
    have hbias {code : Opcode} (h : ν.threeWay? code (ν.read l) (ν.read r) = some value) :
        Opcode.bias? code = some value := by
      rcases compared_of_threeWay? h with ⟨order, horder, -⟩ | ⟨-, hbias⟩
      · rw [hunordered] at horder
        cases horder
      · exact hbias
    rw [Opcode.misleads, hbias hresult'] at hmisleads
    rwa [Opcode.misleads, hbias hresult]
  · intro hmisleads
    exact ⟨hright, l, r, code, value, hleft, hunordered, hresult, hvalue, hmisleads⟩

-- Where the jump asks for the result of a three-way comparison, the inverse comparison of its
-- operands is decided by their order, or by the bias if they have none.
theorem exists_accepts?_of_compare {l r : Element} (hleft : left.shape = .compare l r)
    (hright : right.isInt 0) (hrespects : ν.Respects left) (hop : op.inverse? = some inverse)
    (htaken : op.accepts? (ν.compared (ν.read left) (ν.read right)) = some taken) :
    ∃ holds, inverse.accepts? (ν.compared (ν.read l) (ν.read r)) = some holds ∧
      (holds = !taken ↔ ¬ν.Misled left op right) := by
  obtain ⟨code, value, hresult, hvalue⟩ := hrespects l r hleft
  rw [hvalue, read_of_isInt hright] at htaken
  rcases compared_of_threeWay? hresult with ⟨order, horder, rfl⟩ | ⟨hunordered, hbias⟩
  · have hsign : op.accepts? (some (compare (Opcode.sign order).toInt 0)) = some taken := htaken
    rw [compare_sign] at hsign
    have hholds : inverse.accepts? (ν.compared (ν.read l) (ν.read r)) = some !taken := by
      rw [horder, accepts?_inverse hop, hsign]
      rfl
    refine ⟨!taken, hholds, iff_of_true rfl ?_⟩
    rintro ⟨-, l', r', -, -, hleft', hnone, -⟩
    obtain ⟨rfl, rfl⟩ := Shape.compare.inj (hleft.symm.trans hleft')
    rw [horder] at hnone
    cases hnone
  · obtain ⟨holds, hholds, hiff⟩ := accepts?_bias hbias hop htaken
    refine ⟨holds, (congrArg inverse.accepts? hunordered).trans hholds, hiff.trans ?_⟩
    exact not_congr (misled_iff hleft hright hunordered hresult hvalue).symm

-- What a jump may compare: two ints, or two references for equality.
def Comparable (ν : Valuation F) (left : Element) (op : BinaryOp) (right : Element) : Prop :=
  (∃ a b, ν.read left = .int a ∧ ν.read right = .int b) ∨
    (op = .eq ∨ op = .ne) ∧ ∃ a b, ν.read left = .reference a ∧ ν.read right = .reference b

-- The inverse comparison of what a jump may compare holds exactly if the jump is not taken.
theorem Comparable.accepts?_inverse (h : ν.Comparable left op right)
    (hop : op.inverse? = some inverse)
    (htaken : op.accepts? (ν.compared (ν.read left) (ν.read right)) = some taken) :
    inverse.accepts? (ν.compared (ν.read left) (ν.read right)) = some !taken := by
  rcases h with ⟨a, b, hleft, hright⟩ | ⟨hequality, -⟩
  · rw [hleft, hright] at htaken ⊢
    exact (Valuation.accepts?_inverse hop _).trans (congrArg (Option.map (!·)) htaken)
  · rw [accepts?_inverse_of_equality hop hequality, htaken]
    rfl

-- A boolean that is asked for is not taken to be true exactly if it is false.
theorem Comparable.holds?_not (h : ν.Comparable left .ne right) (hright : right.isInt 0)
    (htaken : BinaryOp.ne.accepts? (ν.compared (ν.read left) (ν.read right)) = some taken)
    (ty : JvmType) : ν.holds? (.ofShape (.unary left .not ty)) = some !taken := by
  rw [read_of_isInt hright] at htaken
  rcases h with ⟨a, b, hleft, -⟩ | ⟨-, a, b, -, hreference⟩
  · rw [hleft] at htaken
    obtain rfl := Option.some.inj htaken
    have hzero : a = 0 ↔ compare a.toInt (0 : Int32).toInt = .eq := by
      rw [Int.compare_eq_eq, Int32.toInt_inj]
    simp [holds?, Element.ofShape, hleft, compared, hzero]
  · rw [read_of_isInt hright] at hreference
    cases hreference

-- The expression for a branch that is not taken is true exactly then, unless the branch is misled.
theorem holds?_untaken {branch condition : Element} {target : Nat}
    (hbranch : branch.shape = .branch left op right target)
    (hcondition : branch.untaken = .ok condition) (hrespects : ν.Respects left)
    (hcomparable : ν.Comparable left op right)
    (htaken : op.accepts? (ν.compared (ν.read left) (ν.read right)) = some taken) :
    ∃ holds, ν.holds? condition = some holds ∧ (holds = !taken ↔ ¬ν.Misled left op right) := by
  have hnot (h : ¬(right.isInt 0 ∧ ∃ l r, left.shape = .compare l r)) :
      (!taken) = !taken ↔ ¬ν.Misled left op right := by
    refine iff_of_true rfl ?_
    rintro ⟨hright, l, r, -, -, hleft, -⟩
    exact h ⟨hright, l, r, hleft⟩
  rw [Element.untaken, hbranch] at hcondition
  cases hop : op.inverse? with
  | none => simp [hop] at hcondition
  | some inverse =>
    simp only [hop] at hcondition
    split at hcondition
    case isTrue hboolean =>
      simp only [Bool.and_eq_true, decide_eq_true_eq] at hboolean
      obtain ⟨⟨rfl, hty⟩, hright⟩ := hboolean
      obtain rfl := Except.ok.inj hcondition
      refine ⟨_, hcomparable.holds?_not hright htaken _, hnot ?_⟩
      rintro ⟨-, l, r, hleft⟩
      rw [Element.ty, hleft] at hty
      cases hty
    case isFalse =>
      split at hcondition
      case h_1 l r hleft hright =>
        obtain rfl := Except.ok.inj hcondition
        exact exists_accepts?_of_compare hleft hright hrespects hop htaken
      case h_2 hother =>
        obtain rfl := Except.ok.inj hcondition
        refine ⟨_, hcomparable.accepts?_inverse hop htaken, hnot ?_⟩
        rintro ⟨hright, l, r, hleft⟩
        exact hother l r hleft hright

end Valuation

end JvmLift
